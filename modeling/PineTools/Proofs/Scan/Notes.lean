import PineTools.Proofs.Scan.Revision

/-! Notes: the comments and the literals of a script, each with its exact text. A note ends where
the scanner is back in code, so that two comments side by side are two notes; one that is open at
the end of its line or of the script counts as far as it goes. -/
namespace PineTools

open Mode

def pendingNote (current : Text) : List Text := if current.isEmpty then [] else [current]

/-- What one character does to the notes: those it finishes, and the one that goes on. -/
def noteStep (current : Text) (c : Char) (reading : Cell × Mode) : List Text × Text :=
  if reading.1.isCode then (pendingNote current, [])
  else if reading.2.inCode then ([current ++ [c]], [])
  else ([], current ++ [c])

/-- The notes of a text that the given character follows: those that are finished, and the one that
goes on. -/
def notesUpTo (m : Mode) (ahead : Option Char) (current : Text) : Text → List Text × Text
  | [] => ([], current)
  | c :: cs =>
    let reading := m.step c (cs.head?.or ahead)
    let here := noteStep current c reading
    let rest := notesUpTo reading.2 ahead here.2 cs
    (here.1 ++ rest.1, rest.2)

/-- The notes of a text that is read from the given mode on, amid a note of which the given part has
been read. -/
def notesFrom (m : Mode) (current : Text) (t : Text) : List Text :=
  let read := notesUpTo m none current t
  read.1 ++ pendingNote read.2

def notes (t : Text) : List Text := notesFrom .start [] t

def AtNote (m : Mode) (current : Text) : Prop := m.inCode = true → current = []

theorem atNote_start : AtNote .start [] := fun _ => rfl

theorem atNote_noteStep (m : Mode) (current : Text) (c : Char) (ahead : Option Char) :
    AtNote (m.step c ahead).2 (noteStep current c (m.step c ahead)).2 := by
  intro h
  rw [noteStep, h]
  split <;> rfl

theorem notesUpTo_append (m : Mode) (ahead : Option Char) (current a b : Text) :
    notesUpTo m ahead current (a ++ b) =
      ((notesUpTo m (b.head?.or ahead) current a).1 ++
        (notesUpTo (m.after (b.head?.or ahead) a) ahead
          (notesUpTo m (b.head?.or ahead) current a).2 b).1,
        (notesUpTo (m.after (b.head?.or ahead) a) ahead
          (notesUpTo m (b.head?.or ahead) current a).2 b).2) := by
  induction a generalizing m current with
  | nil => rfl
  | cons c cs ih =>
    rw [List.cons_append, notesUpTo, ih, List.head?_append, Option.or_assoc, notesUpTo, Mode.after]
    simp only [List.append_assoc]

theorem atNote_notesUpTo {m : Mode} {current : Text} (h : AtNote m current) (ahead : Option Char)
    (t : Text) :
    AtNote (m.after ahead t) (notesUpTo m ahead current t).2 := by
  induction t generalizing m current with
  | nil => exact h
  | cons c cs ih => exact ih (atNote_noteStep m current c _)

theorem ReadsAlike.notesUpTo {m : Mode} {t : Text} {ahead ahead' : Option Char}
    (h : ReadsAlike m t ahead ahead') (current : Text) : notesUpTo m ahead current t =
      notesUpTo m ahead' current t := by
  induction t generalizing m current with
  | nil => rfl
  | cons c cs ih =>
    rw [ReadsAlike, cellsUpTo, cellsUpTo, List.cons.injEq, Mode.after, Mode.after] at h
    have hstep : m.step c (cs.head?.or ahead') = m.step c (cs.head?.or ahead) := by
      cases cs with
      | nil => exact Prod.ext h.1.1.symm h.2.symm
      | cons d ds => rfl
    rw [hstep] at h
    simp only [PineTools.notesUpTo, hstep, ih ⟨h.1.2, h.2⟩]

theorem notesFrom_lands {m : Mode} {t : Text} (h : Lands m t.head?) {current : Text}
    (hc : AtNote m current) :
    notesFrom m current t = pendingNote current ++ notes t := by
  have hcode (hm : m.inCode = true) : notesFrom m current t = pendingNote current ++ notes t := by
    rw [hc hm]
    cases t with
    | nil => rfl
    | cons c cs =>
      rw [notes, notesFrom, notesFrom, notesUpTo, notesUpTo, h.step]
      rfl
  rcases h with h | ⟨hs, hb, hend⟩
  · obtain ⟨b, rfl⟩ := h.exists_code
    exact hcode rfl
  · cases t with
    | nil => exact (List.append_nil _).symm
    | cons c cs =>
      obtain rfl : c = '\n' := by
        rcases hend with e | e
        · cases e
        · exact Option.some.inj e
      have hread (ahead : Option Char) (m : Mode) (hs : m.settled = true) (hb : m.inBlock = false) :
          m.step '\n' ahead = (⟨'\n', .code, false⟩, .code false) := by
        rw [step_newline hs, entry, hb]
        rfl
      rw [notes, notesFrom, notesFrom, notesUpTo, notesUpTo, hread _ m hs hb,
        hread _ .start rfl rfl]
      simp only [noteStep, Cell.isCode, beq_self_eq_true, if_true, List.append_assoc]
      rfl

theorem notesFrom_append {m : Mode} {a t : Text} (hread : ReadsAlike m a none t.head?)
    (hlands : Lands (m.after none a) t.head?) {current : Text} (hc : AtNote m current) :
    notesFrom m current (a ++ t) = notesFrom m current a ++ notes t := by
  have hread' := hread.notesUpTo current
  have hnext := notesFrom_lands hlands (atNote_notesUpTo hc none a)
  rw [notesFrom] at hnext
  rw [notesFrom, notesUpTo_append, Option.or_none, ← hread', ← hread.2, List.append_assoc,
    hnext, notesFrom]
  simp only [List.append_assoc]

theorem notesFrom_bare {m : Mode} {t : Text} (h : Bare m t.head?) {current : Text}
    (hc : AtNote m current) :
    notesFrom m current t = notes t := by
  have hpending : pendingNote current = [] := by
    obtain ⟨b, rfl⟩ := h.exists_code
    rw [hc rfl]
    rfl
  rw [notesFrom_lands (.inl h) hc, hpending, List.nil_append]

theorem notesFrom_cons (m : Mode) (current : Text) (c : Char) (t : Text) :
    notesFrom m current (c :: t) =
      (noteStep current c (m.step c t.head?)).1 ++
        notesFrom (m.step c t.head?).2 (noteStep current c (m.step c t.head?)).2 t := by
  rw [notesFrom, notesUpTo, Option.or_none, notesFrom, List.append_assoc]

theorem notesUpTo_quiet_ahead (m : Mode) {c : Char} (h : Quiet c) (current l : Text) :
    notesUpTo m (some c) current l = notesUpTo m none current l := by
  induction l generalizing m current with
  | nil => rfl
  | cons x xs ih =>
    cases xs with
    | nil =>
      obtain ⟨hcell, hmode⟩ := m.step_quiet_ahead x h
      have hcode : (m.step x (some c)).2.inCode = (m.step x none).2.inCode := by
        rcases hmode with e | ⟨q, e, e'⟩
        · rw [e]
        · rw [e, e']
          rfl
      have hstep : noteStep current x (m.step x (some c)) = noteStep current x (m.step x none) := by
        rw [noteStep, noteStep, hcell, hcode]
      simp only [notesUpTo, List.head?_nil, Option.none_or, hstep]
    | cons y ys =>
      rw [notesUpTo, notesUpTo]
      exact congrArg (fun r => (_ ++ Prod.fst r, Prod.snd r)) (ih _ _)

theorem notesFrom_eq_nil_iff (m : Mode) (current t : Text) :
    notesFrom m current t = [] ↔ current = [] ∧ ∀ c ∈ cellsFrom m t, c.isCode = true := by
  induction t generalizing m current with
  | nil =>
    cases current with
    | nil => simp [notesFrom, notesUpTo, pendingNote, cellsFrom]
    | cons c cs => simp [notesFrom, notesUpTo, pendingNote]
  | cons c cs ih =>
    rw [notesFrom_cons, List.append_eq_nil_iff, ih, cellsFrom, List.forall_mem_cons]
    cases hcode : (m.step c cs.head?).1.isCode with
    | true =>
      rw [noteStep, if_pos hcode]
      cases current <;> simp [pendingNote]
    | false =>
      rw [noteStep, if_neg (by rw [hcode]; exact Bool.false_ne_true)]
      split <;> simp

theorem notes_eq_nil_iff (t : Text) : notes t = [] ↔ ∀ c ∈ cells t, c.isCode = true := by
  rw [notes, notesFrom_eq_nil_iff, cells]
  exact and_iff_right rfl

/-- A character that is always read as code and leaves the scanner as it was. -/
def Tame (c : Char) : Prop := c ≠ '/' ∧ c ≠ '\\' ∧ Quote.ofChar? c = none

instance (c : Char) : Decidable (Tame c) := inferInstanceAs (Decidable (_ ∧ _ ∧ _))

theorem Tame.bare {c : Char} (h : Tame c) (b : Bool) : Bare (.code b) (some c) := by
  refine bare_code b fun q e => ?_
  have hquote := h.2.2
  rw [Option.some.inj e] at hquote
  cases q <;> cases hquote

theorem step_tame {c : Char} (h : Tame c) (ahead : Option Char) :
    Mode.start.step c ahead = (⟨c, .code, false⟩, .start) := by
  rw [start, step]
  obtain ⟨e, -⟩ | ⟨e, -⟩ | ⟨q, -, e, -⟩ | ⟨-, -, e⟩ := stepCode_cases false c ahead
  · exact absurd e h.1
  · exact absurd e h.1
  · rw [h.2.2] at e
    cases e
  · rw [e, beq_false_of_ne h.2.1]

theorem after_tame {t : Text} (h : ∀ c ∈ t, Tame c) (ahead : Option Char) :
    Mode.start.after ahead t = .start := by
  induction t with
  | nil => rfl
  | cons c cs ih =>
    obtain ⟨hc, hcs⟩ := List.forall_mem_cons.mp h
    rw [Mode.after, step_tame hc, ih hcs]

theorem notes_tame {t : Text} (h : ∀ c ∈ t, Tame c) : notes t = [] := by
  rw [notes_eq_nil_iff, cells]
  induction t with
  | nil =>
    intro c hc
    cases hc
  | cons c cs ih =>
    obtain ⟨hc, hcs⟩ := List.forall_mem_cons.mp h
    rw [cellsFrom, step_tame hc, List.forall_mem_cons]
    exact ⟨rfl, ih hcs⟩

/-- An edit that writes tame characters where the scanner stands in code. -/
theorem Edit.sound_of_tame {t : Text} {e : Edit} (hne : e.replacement ≠ [])
    (htame : ∀ c ∈ e.replacement, Tame c) (hhead : e.replacement.head? ≠ some '*')
    (begins : Bare (modeAt t e.start) (t.drop e.start).head?)
    (lands : Lands (modeAt t e.stop) (t.drop e.stop).head?) : Edit.Sound t e := by
  have hfirst : ∀ c, (e.replacement ++ t.drop e.stop).head? = some c → Tame c ∧ c ≠ '*' := by
    intro c hc
    cases hr : e.replacement with
    | nil => exact absurd hr hne
    | cons d ds =>
      rw [hr] at hc htame hhead
      obtain rfl : d = c := Option.some.inj hc
      exact ⟨htame d List.mem_cons_self, fun e => hhead (congrArg some e)⟩
  have hlast : e.replacement.getLast? ≠ some '/' :=
    fun h => (htame '/' (List.mem_of_getLast? h)).1 rfl
  refine ⟨begins, ?_, .inr fun c hc => ⟨(hfirst c hc).1.1, (hfirst c hc).2⟩, lands, ?_, ?_⟩
  · obtain ⟨b, hb⟩ := begins.exists_code
    cases b with
    | false => exact .inl hb
    | true =>
      refine .inr ⟨hb, fun q hq => ?_⟩
      have := (hfirst q.char hq).1.2.2
      cases q <;> exact absurd this (by decide)
  · exact readsAlike_of_code (after_tame htame none) (.inl hlast)
  · rw [after_tame htame]
    exact .inl (.inl rfl)

namespace Revises

variable {m : Mode} {t t' : Text} {swaps : List Swap}

theorem notesFrom_eq (h : Revises m t t' swaps) (hs : ∀ s ∈ swaps, notes s.new = notes s.old)
    {current : Text} (hc : AtNote m current) : notesFrom m current t' = notesFrom m current t := by
  induction h generalizing current with
  | done m => rfl
  | @keep m c t t' swaps same rest ih =>
    rw [notesFrom_cons, notesFrom_cons, same, ih hs (atNote_noteStep m current c _)]
  | swap begins begins' reads reads' lands lands' rest ih =>
    rw [notesFrom_bare begins hc, notesFrom_bare begins' hc, notes, notes,
      notesFrom_append reads lands atNote_start, notesFrom_append reads' lands' atNote_start]
    have hhere := hs _ List.mem_cons_self
    have hrest := ih (fun s hs' => hs s (List.mem_cons_of_mem _ hs')) atNote_start
    simp only [notes] at hhere hrest ⊢
    rw [hhere, hrest]

theorem notesFrom_length (h : Revises m t t' swaps) {lost : Swap → Nat}
    (hs : ∀ s ∈ swaps, (notes s.new).length + lost s = (notes s.old).length) {current : Text}
    (hc : AtNote m current) :
    (notesFrom m current t').length + Swap.total lost swaps = (notesFrom m current t).length := by
  induction h generalizing current with
  | done m => rfl
  | @keep m c t t' swaps same rest ih =>
    have := ih hs (atNote_noteStep m current c t.head?)
    rw [notesFrom_cons, notesFrom_cons, same, List.length_append, List.length_append]
    omega
  | swap begins begins' reads reads' lands lands' rest ih =>
    have hhere := hs _ List.mem_cons_self
    have hrest := ih (fun s hs' => hs s (List.mem_cons_of_mem _ hs')) atNote_start
    rw [notesFrom_bare begins hc, notesFrom_bare begins' hc, notes, notes,
      notesFrom_append reads lands atNote_start, notesFrom_append reads' lands' atNote_start]
    simp only [Swap.total, List.length_append]
    simp only [notes] at hhere hrest ⊢
    omega

/-- A revision that adds no notes keeps them, and their number, exactly if no swap loses one. -/
theorem notes_lost (h : Revises .start t t' swaps) {lost : Swap → Nat}
    (hs : ∀ s ∈ swaps, (notes s.new).length + lost s = (notes s.old).length ∧
      (lost s = 0 → notes s.new = notes s.old)) :
    (notes t').length + Swap.total lost swaps = (notes t).length ∧
      ((notes t').length = (notes t).length → ∀ s ∈ swaps, lost s = 0) ∧
      ((∀ s ∈ swaps, lost s = 0) → notes t' = notes t) := by
  have hlength := h.notesFrom_length (fun s hm => (hs s hm).1) atNote_start
  rw [← notes, ← notes] at hlength
  refine ⟨hlength, fun e => ?_, fun hzero =>
    h.notesFrom_eq (fun s hm => (hs s hm).2 (hzero s hm)) atNote_start⟩
  exact Swap.total_eq_zero_iff.mp (by omega)

theorem inCode_after (h : Revises m t t' swaps)
    (hs : ∀ s ∈ swaps, (Mode.start.after none s.old).inCode = true ∧
      (Mode.start.after none s.new).inCode = true) :
    (m.after none t').inCode = (m.after none t).inCode := by
  induction h with
  | done m => rfl
  | @keep m c t t' swaps same rest ih =>
    rw [Mode.after, Mode.after, Option.or_none, Option.or_none, same, ih hs]
  | @swap m old new t t' swaps begins begins' reads reads' lands lands' rest ih =>
    -- Behind a stretch the rest is read as from the start.
    have hread {old t : Text} (begins : Bare m (old ++ t).head?)
      (reads : ReadsAlike .start old none t.head?)
        (lands : Lands (Mode.start.after none old) t.head?)
          (hold : (Mode.start.after none old).inCode = true) :
        (m.after none (old ++ t)).inCode = (Mode.start.after none t).inCode := by
      have hbare : m.after none (old ++ t) = Mode.start.after none (old ++ t) ∨ old ++ t = [] := by
        cases he : old ++ t with
        | nil => exact .inr rfl
        | cons c cs =>
          rw [he] at begins
          rw [Mode.after, Mode.after, begins.step]
          exact .inl rfl
      rcases hbare with e | e
      · rw [e, Mode.after_append, Option.or_none, ← reads.2]
        cases t with
        | nil => exact hold
        | cons c cs => rw [Mode.after, Mode.after, lands.step]
      · obtain ⟨rfl, rfl⟩ := List.append_eq_nil_iff.mp e
        obtain ⟨b, rfl⟩ := begins.exists_code
        rfl
    obtain ⟨hold, hnew⟩ := hs _ List.mem_cons_self
    rw [hread begins reads lands hold, hread begins' reads' lands' hnew]
    exact ih fun s hs' => hs s (List.mem_cons_of_mem _ hs')

end Revises

theorem after_white_outside {m : Mode} (hm : m.inCode = false) (hl : m ≠ .blockLast)
    (ahead : Option Char) {w : Text} (hw : ∀ c ∈ w, Text.isSpace c = true ∧ c ≠ '\n') :
    (m.after ahead w).inCode = false := by
  induction w generalizing m with
  | nil => exact hm
  | cons c cs ih =>
    obtain ⟨⟨hc, hn⟩, hcs⟩ := List.forall_mem_cons.mp hw
    have hstar : c ≠ '*' := ne_of_white hc (by decide)
    have hback : c ≠ '\\' := ne_of_white hc (by decide)
    rw [Mode.after]
    cases m with
    | code b => cases hm
    | blockLast => exact absurd rfl hl
    | literal q =>
      have hq : c ≠ q.char := ne_of_white hc q.char_not_white
      simp only [step, stepLiteral, hn, hq, hback, false_and, if_false]
      exact ih rfl (by simp) hcs
    | line =>
      simp only [step, hn, if_false]
      exact ih rfl (by simp) hcs
    | block =>
      simp only [step, hstar, false_and, if_false]
      exact ih rfl (by simp) hcs
    | lineSecond | blockSecond | escaped q => exact ih rfl (by simp [step]) hcs

theorem tame_of_white {c : Char} (h : Text.isSpace c = true) : Tame c :=
  ⟨ne_of_white h (by decide), ne_of_white h (by decide), Quote.ofChar?_white h⟩

theorem tame_of_blanks {t : Text} (h : ∀ c ∈ t, Text.isBlank c = true) : ∀ c ∈ t, Tame c :=
  fun c hc => tame_of_white (Text.white_of_blanks h c hc)

theorem notes_tame_append {a : Text} (h : ∀ c ∈ a, Tame c) (t : Text) :
    notes (a ++ t) = notes t ∧ Mode.start.after none (a ++ t) = Mode.start.after none t := by
  have hlast : a.getLast? ≠ some '/' := fun e => (h '/' (List.mem_of_getLast? e)).1 rfl
  have hread : ReadsAlike .start a none t.head? :=
    readsAlike_of_code (after_tame h none) (.inl hlast)
  have hlands : Lands (Mode.start.after none a) t.head? := .inl (.inl (after_tame h none))
  constructor
  · rw [notes, notesFrom_append hread hlands atNote_start, ← notes, notes_tame h, List.nil_append]
  · rw [Mode.after_append, after_tame h]

theorem notes_trimLeft (x : Text) : notes (Text.trimLeft Text.isSpace x) = notes x ∧
    Mode.start.after none (Text.trimLeft Text.isSpace x) = Mode.start.after none x := by
  have hleft : ∀ c ∈ x.takeWhile Text.isSpace, Tame c :=
    fun c hc => tame_of_white (List.all_eq_true.mp List.all_takeWhile c hc)
  obtain ⟨hnotes, hafter⟩ := notes_tame_append hleft (x.dropWhile Text.isSpace)
  rw [List.takeWhile_append_dropWhile] at hnotes hafter
  exact ⟨hnotes.symm, hafter.symm⟩

theorem notes_strip_of_solid {x : Text} (h : ∀ c, x.getLast? = some c → Text.isSpace c = false) :
    notes (Text.strip x) = notes x ∧ Mode.start.after none (Text.strip x) =
      Mode.start.after none x := by
  have hsolid : Text.strip x = Text.trimLeft Text.isSpace x := by
    apply Text.trimRight_eq_self
    intro c hc
    apply h
    rw [← @List.takeWhile_append_dropWhile _ Text.isSpace x, List.getLast?_append]
    rw [Text.trimLeft] at hc
    rw [hc]
    rfl
  rw [hsolid]
  exact notes_trimLeft x

/-- Before white space at its end a line that ends in code stands in code, since nothing but a
newline or a pair would lead there. -/
theorem code_before_white {z white : Text} {c : Char} (hwhite : ∀ d ∈ c :: white, Text.isSpace d =
    true ∧ d ≠ '\n') (h : (Mode.start.after none (z ++ c :: white)).inCode = true) :
      ∃ b, Mode.start.after (some c) z = .code b := by
  refine exists_code_of_inCode (Classical.byContradiction fun hm => ?_)
  have hlast : Mode.start.after (some c) z ≠ .blockLast := by
    intro hb
    have hsettled := @settled_after .start rfl z
    rcases after_quiet_ahead .start (quiet_of_white (hwhite c List.mem_cons_self).1)
      z with e | ⟨q, e, -⟩
    · rw [← e, hb] at hsettled
      cases hsettled
    · rw [hb] at e
      cases e
  rw [Mode.after_append, List.head?_cons, Option.some_or,
    after_white_outside (Bool.eq_false_iff.mpr hm) hlast none hwhite] at h
  cases h

theorem notes_strip {x : Text} (hx : Text.OneLine x) (h : (Mode.start.after none x).inCode = true) :
    notes (Text.strip x) = notes x ∧ (Mode.start.after none (Text.strip x)).inCode = true := by
  have hdrop : Text.OneLine (x.dropWhile Text.isSpace) :=
    fun k => hx ((List.dropWhile_sublist _).mem k)
  have hlead := notes_trimLeft x
  rw [← hlead.1]
  rw [← hlead.2] at h
  rw [Text.strip]
  rw [Text.trimLeft] at h ⊢
  generalize x.dropWhile Text.isSpace = y at h hdrop
  obtain ⟨white, e, hwhite⟩ := Text.trimRight_append_white Text.isSpace y
  have hnl : ∀ c ∈ white, Text.isSpace c = true ∧ c ≠ '\n' := by
    refine fun c hc => ⟨hwhite c hc, ?_⟩
    rintro rfl
    exact hdrop (e ▸ List.mem_append_right _ hc)
  generalize Text.trimRight Text.isSpace y = z at e
  subst e
  cases white with
  | nil =>
    rw [List.append_nil] at h ⊢
    exact ⟨rfl, h⟩
  | cons c cs =>
    obtain ⟨b, hb⟩ := code_before_white hnl h
    have hread : ReadsAlike .start z none (some c) :=
      (readsAlike_of_code hb (.inr fun c e => by cases e)).symm
    have hlands : Lands (Mode.start.after none z) (c :: cs).head? := by
      rw [hread.2, hb]
      refine .inl (bare_code b fun q e => ?_)
      have hspace := (hnl c List.mem_cons_self).1
      rw [Option.some.inj e, q.char_not_white] at hspace
      cases hspace
    constructor
    · rw [notes, notes, notesFrom_append hread hlands atNote_start, notes_tame fun d hd =>
        tame_of_white (hwhite d hd), List.append_nil]
    · rw [hread.2, hb]
      rfl

end PineTools
