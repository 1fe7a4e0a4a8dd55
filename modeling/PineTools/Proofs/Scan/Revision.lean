import PineTools.Proofs.Scan.Parts
import PineTools.Proofs.Scan.White
import PineTools.Proofs.Text.Splices

/-! Revisions of a script. A revision keeps most characters and replaces stretches of code. Where
each stretch begins and ends in code, before and after the change, everything outside is read as it
was. -/
namespace PineTools

namespace Mode

def Bare (m : Mode) (ahead : Option Char) : Prop := m = .code false ∨ m = .code true ∧ ∀ q : Quote,
    ahead ≠ some q.char

/-- What follows is read as at the start of a script, and no comment or literal goes on. -/
def Lands (m : Mode) (ahead : Option Char) : Prop :=
  Bare m ahead ∨ m.settled = true ∧ m.inBlock = false ∧ (ahead = none ∨ ahead = some '\n')

theorem bare_code (b : Bool) {ahead : Option Char} (h : ∀ q : Quote, ahead ≠ some q.char) :
    Bare (.code b) ahead := by
  cases b with
  | false => exact .inl rfl
  | true => exact .inr ⟨rfl, h⟩

theorem Bare.exists_code {m : Mode} {ahead : Option Char} (h : Bare m ahead) :
    ∃ b, m = .code b := by
  rcases h with rfl | ⟨rfl, -⟩
  · exact ⟨false, rfl⟩
  · exact ⟨true, rfl⟩

theorem Bare.step {m : Mode} {c : Char} (h : Bare m (some c)) (ahead : Option Char) :
    m.step c ahead = start.step c ahead := by
  rcases h with rfl | ⟨rfl, hq⟩
  · rfl
  · have hc : Quote.ofChar? c = none :=
      Option.eq_none_iff_forall_ne_some.mpr fun q e =>
        hq q (congrArg some (Quote.ofChar?_eq_some e))
    simp only [Mode.step, start, stepCode, hc]

theorem Lands.step {m : Mode} {c : Char} (h : Lands m (some c)) (ahead : Option Char) :
    m.step c ahead = start.step c ahead := by
  rcases h with h | ⟨hs, hb, e | e⟩
  · exact h.step ahead
  · cases e
  · cases e
    rw [step_newline hs, step_newline rfl, entry, hb]
    rfl

/-- A character that leads into code does so too at the end of the text. -/
theorem step_none_of_code {m : Mode} {x : Char} {ahead : Option Char} {b : Bool}
    (h : (m.step x ahead).2 = .code b) :
    m.step x none = m.step x ahead := by
  cases m with
  | code b' =>
    rw [Mode.step] at h
    rw [Mode.step, Mode.step]
    obtain ⟨-, -, e⟩ | ⟨-, -, e⟩ | ⟨q, -, -, e⟩ | ⟨-, hq, e⟩ := stepCode_cases b' x ahead
    · rw [e] at h; cases h
    · rw [e] at h; cases h
    · rw [e] at h; cases h
    · rw [e]
      rcases hq with rfl | hq
      · simp [stepCode]
      · simp [stepCode, hq]
  | literal q =>
    rw [Mode.step] at h
    rw [Mode.step, Mode.step]
    obtain ⟨hx, e⟩ | ⟨hx, e⟩ | ⟨-, -, e⟩ | ⟨-, -, -, e⟩ := stepLiteral_cases q x ahead
    · rw [e, hx]; rfl
    · rw [e, hx]
      cases q <;> rfl
    · rw [e] at h; cases h
    · rw [e] at h; cases h
  | block =>
    rw [Mode.step] at h
    split at h <;> cases h
  | line | lineSecond | blockSecond | blockLast | escaped q => rfl

theorem step_of_code {m : Mode} {x : Char} {b : Bool} (hx : x ≠ '/')
    (h : (m.step x none).2 = .code b) (ahead : Option Char) :
    m.step x ahead = m.step x none := by
  cases m with
  | code b' => simp [Mode.step, stepCode, hx]
  | literal q =>
    rw [Mode.step] at h
    obtain ⟨hn, -⟩ | ⟨hq, -⟩ | ⟨-, -, e⟩ | ⟨-, -, -, e⟩ := stepLiteral_cases q x none
    · subst hn; rfl
    · subst hq
      cases q <;> rfl
    · rw [e] at h; cases h
    · rw [e] at h; cases h
  | block =>
    rw [Mode.step] at h
    split at h <;> cases h
  | line | lineSecond | blockSecond | blockLast | escaped q => rfl

theorem step_quiet_of_code {m : Mode} {x : Char} {b : Bool} (h : (m.step x none).2 = .code b)
    {c : Char} (hc : Quiet c) :
    m.step x (some c) = m.step x none := by
  obtain ⟨hcell, hmode | ⟨q, -, e⟩⟩ := m.step_quiet_ahead x hc
  · exact Prod.ext hcell hmode
  · rw [h] at e
    cases e

end Mode

open Mode

theorem cellsFrom_lands {m : Mode} {t : Text} (h : Lands m t.head?) :
    cellsFrom m t = cellsFrom .start t := by
  cases t with
  | nil => rfl
  | cons c cs => rw [cellsFrom, cellsFrom, h.step]

theorem readsAlike_nil (m : Mode) (ahead ahead' : Option Char) :
    ReadsAlike m [] ahead ahead' := ⟨rfl, rfl⟩

/-- A text that ends in code, with two ways to go on that the last character does not tell apart. -/
theorem readsAlike_of_code {m : Mode} {t : Text} {ahead ahead' : Option Char} {b : Bool}
    (h : m.after ahead t = .code b) (hlast : t.getLast? ≠ some '/' ∨ ∀ c, ahead' = some c →
      Quiet c) : ReadsAlike m t ahead ahead' := by
  rcases List.eq_nil_or_concat t with rfl | ⟨a, x, rfl⟩
  · exact readsAlike_nil m ahead ahead'
  rw [List.concat_eq_append] at *
  rw [after_concat] at h
  have hnone := step_none_of_code h
  rw [← hnone] at h
  refine readsAlike_concat (hnone.symm.trans ?_)
  rcases hlast with hlast | hquiet
  · rw [List.getLast?_concat] at hlast
    exact (step_of_code (fun e => hlast (congrArg some e)) h ahead').symm
  · cases ahead' with
    | none => rfl
    | some c => exact (step_quiet_of_code h (hquiet c rfl)).symm

theorem readsAlike_newline (m : Mode) (t : Text) : ReadsAlike m t (some '\n') none := by
  rw [ReadsAlike, cellsUpTo_newline_ahead, cellsUpTo_none]
  exact ⟨rfl, after_newline_ahead m t⟩

theorem ReadsAlike.symm {m : Mode} {t : Text} {ahead ahead' : Option Char}
    (h : ReadsAlike m t ahead ahead') :
    ReadsAlike m t ahead' ahead := ⟨h.1.symm, h.2.symm⟩

theorem readsAlike_none_of_lands {m : Mode} {t : Text} {ahead : Option Char}
    (h : Lands (m.after ahead t) ahead) :
    ReadsAlike m t none ahead := by
  rcases h with h | ⟨-, -, rfl | rfl⟩
  · obtain ⟨b, hb⟩ := h.exists_code
    exact (readsAlike_of_code hb (.inr fun c e => by cases e)).symm
  · exact ⟨rfl, rfl⟩
  · exact (readsAlike_newline m t).symm

/-- A stretch of a text and what replaces it. -/
structure Swap where
  old : Text
  new : Text

def Swap.total (f : Swap → Nat) : List Swap → Nat
  | [] => 0
  | s :: swaps => f s + Swap.total f swaps

theorem Swap.total_eq_zero_iff {f : Swap → Nat} {swaps : List Swap} :
    Swap.total f swaps = 0 ↔ ∀ s ∈ swaps, f s = 0 := by
  induction swaps with
  | nil => simp [Swap.total]
  | cons s swaps ih => simp [Swap.total, ih]

/-- A text and its revision, read from the same mode on, with what was replaced. -/
inductive Revises : Mode → Text → Text → List Swap → Prop
  | done (m : Mode) : Revises m [] [] []
  | keep {m : Mode} {c : Char} {t t' : Text} {swaps : List Swap}
  (same : m.step c t'.head? = m.step c t.head?)
      (rest : Revises (m.step c t.head?).2 t t' swaps) : Revises m (c :: t) (c :: t') swaps
  | swap {m : Mode} {old new t t' : Text} {swaps : List Swap} (begins : Bare m (old ++ t).head?)
      (begins' : Bare m (new ++ t').head?) (reads : ReadsAlike .start old none t.head?)
      (reads' : ReadsAlike .start new none t'.head?)
      (lands : Lands (Mode.start.after none old) t.head?)
      (lands' : Lands (Mode.start.after none new) t'.head?) (rest : Revises .start t t' swaps) :
      Revises m (old ++ t) (new ++ t') (⟨old, new⟩ :: swaps)

namespace Revises

theorem refl (m : Mode) (t : Text) : Revises m t t [] := by
  induction t generalizing m with
  | nil => exact .done m
  | cons c cs ih => exact .keep rfl (ih _)

theorem keeps {m : Mode} {a t t' : Text} {swaps : List Swap}
    (same : ReadsAlike m a t.head? t'.head?) (rest : Revises (m.after t.head? a) t t' swaps) :
    Revises m (a ++ t) (a ++ t') swaps := by
  induction a generalizing m with
  | nil => exact rest
  | cons c cs ih =>
    rw [ReadsAlike, cellsUpTo, cellsUpTo, List.cons.injEq, Mode.after, Mode.after] at same
    have hstep : m.step c (cs.head?.or t'.head?) = m.step c (cs.head?.or t.head?) := by
      cases cs with
      | nil => exact Prod.ext same.1.1.symm same.2.symm
      | cons d ds => rfl
    rw [hstep] at same
    rw [List.cons_append, List.cons_append]
    refine .keep ?_ ?_
    · rw [List.head?_append, List.head?_append, hstep]
    · rw [List.head?_append]
      exact ih ⟨same.1.2, same.2⟩ rest

theorem of_lands {m : Mode} {t t' : Text} {swaps : List Swap} (h : Revises m t t' swaps)
    (hm : Lands m t.head?) (hhead : t'.head? = t.head?) : Revises .start t t' swaps := by
  cases h with
  | done => exact .done _
  | keep same rest =>
    rw [hm.step] at rest
    refine .keep ?_ rest
    rw [← hm.step, ← hm.step, same]
  | swap begins begins' reads reads' lands lands' rest =>
    exact .swap (.inl rfl) (.inl rfl) reads reads' lands lands' rest

end Revises

def modeAt (t : Text) (i : Nat) : Mode := Mode.start.after (t.drop i).head? (t.take i)

@[simp] theorem modeAt_zero (t : Text) : modeAt t 0 = .start := rfl

theorem modeAt_slice (t : Text) {i j : Nat} (h : i ≤ j) :
    modeAt t j = (modeAt t i).after (t.drop j).head? (Text.slice t i j) := by
  have hhead : (Text.slice t i j).head?.or (t.drop j).head? = (t.drop i).head? := by
    rw [← List.head?_append, Edit.slice_append_drop t h]
  rw [modeAt, ← Edit.take_append_slice t h, Mode.after_append, hhead, modeAt]

theorem modeAt_succ {t : Text} {i : Nat} {c : Char} {rest : Text} (h : t.drop i = c :: rest) :
    modeAt t (i + 1) = ((modeAt t i).step c rest.head?).2 := by
  have hrest : t.drop (i + 1) = rest := by
    rw [← List.drop_drop, h]
    rfl
  have hslice : Text.slice t i (i + 1) = [c] := by
    rw [Text.slice, List.drop_take, h, Nat.add_sub_cancel_left]
    rfl
  rw [modeAt_slice t (Nat.le_succ i), hslice, hrest, Mode.after, Mode.after]
  rfl

/-- At the end of a line the scanner is not in the middle of a pair. -/
theorem settled_modeAt {t : Text} {i : Nat} (h : (t.drop i).head? = none ∨ (t.drop i).head? =
    some '\n') :
    (modeAt t i).settled = true := by
  have hnone : modeAt t i = Mode.start.after none (t.take i) := by
    rcases h with e | e
    · rw [modeAt, e]
    · rw [modeAt, e, after_newline_ahead]
  rw [hnone]
  exact @settled_after .start rfl _

/-- At the end of a stretch the scanner has read all of it. -/
theorem modeAt_length (t : Text) : modeAt t t.length = Mode.start.after none t := by
  rw [modeAt, List.drop_length, List.take_length]
  rfl

/-- An edit that begins and ends in code, before and after it is carried out. -/
structure Edit.Sound (t : Text) (e : Edit) : Prop where
  begins : Bare (modeAt t e.start) (t.drop e.start).head?
  begins_new : Bare (modeAt t e.start) (e.replacement ++ t.drop e.stop).head?
  before : (t.take e.start).getLast? ≠ some '/' ∨ ∀ c, (e.replacement ++ t.drop e.stop).head? =
    some c → Quiet c
  lands : Lands (modeAt t e.stop) (t.drop e.stop).head?
  reads_new : ReadsAlike .start e.replacement none (t.drop e.stop).head?
  lands_new : Lands (Mode.start.after none e.replacement) (t.drop e.stop).head?

def Edit.swap (t : Text) (e : Edit) : Swap := ⟨Text.slice t e.start e.stop, e.replacement⟩

theorem getLast?_slice (t : Text) {i j : Nat} (h : i ≤ j) (hne : Text.slice t i j ≠ []) :
    (Text.slice t i j).getLast? = (t.take j).getLast? := by
  rw [← Edit.take_append_slice t h, List.getLast?_append,
    Option.or_of_isSome (List.getLast?_isSome.mpr hne)]

/-- What a sound edit takes away is read, up to where the text goes on, as code that lands. -/
theorem Edit.Sound.lands_removed {t : Text} {e : Edit} (he : Sound t e) (hstop : e.start ≤ e.stop) :
    Lands (Mode.start.after (t.drop e.stop).head? (Text.slice t e.start e.stop))
    (t.drop e.stop).head? := by
  cases hslice : Text.slice t e.start e.stop with
  | nil => exact .inl (.inl rfl)
  | cons c cs =>
    have hbegins := he.begins
    rw [← slice_append_drop t hstop, hslice] at hbegins
    have hmode := modeAt_slice t hstop
    rw [hslice] at hmode
    have hsame : Mode.start.after (t.drop e.stop).head? (c :: cs) = modeAt t e.stop := by
      rw [hmode, Mode.after, Mode.after, hbegins.step]
    rw [hsame]
    exact he.lands

theorem Edit.Sound.swaps {t : Text} {e : Edit} (he : Sound t e) (hstop : e.start ≤ e.stop)
    {rest : Text} {swaps : List Swap} (hhead : rest.head? = (t.drop e.stop).head?)
    (hrest : Revises (modeAt t e.stop) (t.drop e.stop) rest swaps) :
    Revises (modeAt t e.start) (Text.slice t e.start e.stop ++ t.drop e.stop)
    (e.replacement ++ rest) (Edit.swap t e :: swaps) := by
  have hlands := he.lands_removed hstop
  have hreads := readsAlike_none_of_lands hlands
  have hnew : (e.replacement ++ rest).head? = (e.replacement ++ t.drop e.stop).head? := by
    rw [List.head?_append, List.head?_append, hhead]
  refine .swap ?_ ?_ hreads ?_ ?_ ?_ (hrest.of_lands he.lands hhead)
  · rw [slice_append_drop t hstop]
    exact he.begins
  · rw [hnew]
    exact he.begins_new
  · rw [hhead]
    exact he.reads_new
  · rw [hreads.2]
    exact hlands
  · rw [hhead]
    exact he.lands_new

/-- What stands in front of a sound edit is read as it was. -/
theorem Edit.Sound.reads_front {t : Text} {offset : Nat} {e : Edit} (he : Sound t e)
    (hstart : offset ≤ e.start) {rest : Text} (hhead : rest.head? = (t.drop e.stop).head?) :
    ReadsAlike (modeAt t offset) (Text.slice t offset e.start) (t.drop e.start).head?
      (e.replacement ++ rest).head? := by
  obtain ⟨b, hb⟩ := he.begins.exists_code
  rw [List.head?_append, hhead, ← List.head?_append]
  by_cases hkept : Text.slice t offset e.start = []
  · rw [hkept]
    exact readsAlike_nil _ _ _
  · refine readsAlike_of_code (b := b) ?_ ?_
    · rw [← modeAt_slice t hstart, hb]
    · rw [getLast?_slice t hstart hkept]
      exact he.before

theorem Edit.revises_splice {t : Text} {offset : Nat} {es : List Edit}
    (ho : Ordered t.length offset es) (hs : ∀ e ∈ es, Sound t e) :
    Revises (modeAt t offset) (t.drop offset) (splice t offset es) (es.map (Edit.swap t)) := by
  induction es generalizing offset with
  | nil => exact Revises.refl _ _
  | cons e es ih =>
    obtain ⟨hstart, hstop, hlen, hrest⟩ := ho
    have he := hs e List.mem_cons_self
    have hhead : (splice t e.stop es).head? = (t.drop e.stop).head? := head?_splice t hrest
    have hlater := ih (hrest.weaken (Nat.le_succ _)) fun d hd => hs d (List.mem_cons_of_mem e hd)
    have hswap := he.swaps hstop hhead hlater
    rw [← slice_append_drop t hstart, splice, List.append_assoc]
    rw [slice_append_drop t hstop] at hswap
    exact Revises.keeps (he.reads_front hstart hhead) (by rw [← modeAt_slice t hstart]; exact hswap)

end PineTools
