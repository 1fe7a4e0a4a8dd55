import PineTools.Proofs.Scan.Notes
import PineTools.Proofs.Scan.Rewriting

/-! Lines in which one stretch of code is written anew. Such a change of lines is a revision of the
script, so that what is not written anew is read as before; in particular a block comment goes on
behind a line if it did before. -/
namespace PineTools

open Mode

namespace Revises

variable {m : Mode} {t t' : Text} {swaps : List Swap}

/-- A revision leaves the same block comment open. -/
theorem inBlock_after (h : Revises m t t' swaps) :
    (m.after none t').inBlock = (m.after none t).inBlock := by
  induction h with
  | done m => rfl
  | @keep m c t t' swaps same rest ih =>
    rw [Mode.after, Mode.after, Option.or_none, Option.or_none, same, ih]
  | @swap m old new t t' swaps begins begins' reads reads' lands lands' rest ih =>
    -- Behind a stretch the rest is read as from the start.
    have hread {old t : Text} (begins : Bare m (old ++ t).head?)
      (reads : ReadsAlike .start old none t.head?)
        (lands : Lands (Mode.start.after none old) t.head?) :
        (m.after none (old ++ t)).inBlock = (Mode.start.after none t).inBlock := by
      cases hold : old ++ t with
      | nil =>
        obtain ⟨rfl, rfl⟩ := List.append_eq_nil_iff.mp hold
        obtain ⟨b, rfl⟩ := begins.exists_code
        rfl
      | cons c cs =>
        rw [hold] at begins
        have hstart : m.after none (c :: cs) = Mode.start.after none (c :: cs) := by
          rw [Mode.after, Mode.after, begins.step]
        rw [hstart, ← hold, Mode.after_append, Option.or_none, ← reads.2]
        cases t with
        | nil =>
          rcases lands with hbare | ⟨-, hblock, -⟩
          · obtain ⟨b, hb⟩ := hbare.exists_code
            rw [hb]
            rfl
          · exact hblock
        | cons d ds => rw [Mode.after, Mode.after, lands.step]
    rw [hread begins reads lands, hread begins' reads' lands', ih]

end Revises

/-- A line is kept, or a stretch of its code is replaced by characters that are read as code. -/
inductive Respells (line : ScriptLine) : Text → List Swap → Prop
  | kept : Respells line line.text []
  | swapped {i o new r : Text} {c : Char} (text : line.text = i ++ (o ++ c :: r))
      (begins : (Mode.ofLine line.inComment).after (o ++ c :: r).head? i = .start)
      (lands : Mode.start.after (some c) o = .start) (tame : ∀ d ∈ new, Tame d)
      (quiet : ∀ d, (new ++ c :: r).head? = some d → Quiet d) :
      Respells line (i ++ (new ++ c :: r)) [⟨o, new⟩]

theorem Respells.revises {line : ScriptLine} {l' : Text} {swaps : List Swap}
    (h : Respells line l' swaps) {t t' : Text} (hhead : t'.head? = t.head?) {swaps' : List Swap}
    (rest : Revises ((Mode.ofLine line.inComment).after t.head? line.text) t t' swaps') :
    Revises (.ofLine line.inComment) (line.text ++ t) (l' ++ t') (swaps ++ swaps') := by
  cases h with
  | kept => exact rest.keeps (by rw [hhead]; exact ⟨rfl, rfl⟩)
  | @swapped i o new r c text begins lands tame quiet =>
    have hold : (o ++ c :: (r ++ t)).head? = (o ++ c :: r).head? := by
      rw [List.head?_append, List.head?_append, List.head?_cons, List.head?_cons]
    have hnew : (new ++ c :: (r ++ t')).head? = (new ++ c :: r).head? := by
      rw [List.head?_append, List.head?_append, List.head?_cons, List.head?_cons]
    have hbehind : (Mode.ofLine line.inComment).after t.head? line.text =
        Mode.start.after t.head? (c :: r) := by
      have hsome : (o ++ c :: r).head?.or t.head? = (o ++ c :: r).head? := by
        rw [List.head?_append, List.head?_cons, Option.or_some, Option.some_or]
      rw [text, after_append, hsome, begins, after_append, List.head?_cons, Option.some_or, lands]
    have hlast : new.getLast? ≠ some '/' := fun e => (tame '/' (List.mem_of_getLast? e)).1 rfl
    rw [hbehind] at rest
    rw [text, List.append_assoc, List.append_assoc, List.append_assoc, List.append_assoc,
      List.cons_append, List.cons_append, List.singleton_append]
    refine Revises.keeps ?_ (.swap ?_ ?_ ?_ ?_ ?_ ?_ (Revises.keeps (a := c :: r) ?_ rest))
    · rw [hold, hnew]
      exact readsAlike_of_code begins (.inr quiet)
    · rw [hold, begins]
      exact .inl rfl
    · rw [hold, begins]
      exact .inl rfl
    · exact readsAlike_none_of_lands (.inl (.inl lands))
    · exact readsAlike_of_code (after_tame tame none) (.inl hlast)
    · have hreads : ReadsAlike .start o none (some c) :=
        readsAlike_none_of_lands (.inl (.inl lands))
      rw [hreads.2]
      exact .inl (.inl lands)
    · exact .inl (.inl (after_tame tame none))
    · rw [hhead]
      exact ⟨rfl, rfl⟩

/-- A respelt line leaves the same comment open. -/
theorem Respells.leaves_eq {line : ScriptLine} {l' : Text} {swaps : List Swap}
    (h : Respells line l' swaps) :
    line.leaves l' = line.leaves line.text := by
  have hrevises := @Respells.revises _ _ _ h [] [] rfl [] (.done _)
  rw [List.append_nil, List.append_nil] at hrevises
  exact hrevises.inBlock_after

theorem unlines_rewriteLines_cons (g : ScriptLine → Text) (inComment : Bool) {l : Text}
    {ls : List Text} (hls : ls ≠ []) :
    Text.unlines (rewriteLines g inComment (l :: ls)) = g (readLine inComment l) ++
      '\n' :: Text.unlines (rewriteLines g ((readLine inComment l).leaves l) ls) := by
  rw [rewriteLines_cons, Text.unlines_cons]
  cases ls with
  | nil => exact absurd rfl hls
  | cons l' ls =>
    rw [rewriteLines_cons]
    exact List.cons_ne_nil _ _

theorem revises_rewriteLines {g : ScriptLine → Text} {swaps : ScriptLine → List Swap}
    (h : ∀ line : ScriptLine, line.IsRead → Respells line (g line) (swaps line)) {inComment : Bool}
    {ls : List Text} (hls : ∀ l ∈ ls, Text.OneLine l) :
    Revises (.ofLine inComment) (Text.unlines ls) (Text.unlines (rewriteLines g inComment ls))
      ((readLines (.ofLine inComment) ls).flatMap swaps) := by
  induction ls generalizing inComment with
  | nil => exact .done _
  | cons l ls ih =>
    obtain ⟨hl, hls⟩ := List.forall_mem_cons.mp hls
    have hline := h _ (ScriptLine.isRead_readLine inComment hl)
    have hleaves : (readLine inComment l).leaves l =
        ((Mode.ofLine inComment).after none l).inBlock := by
      rw [ScriptLine.leaves, ScriptLine.readLine_inComment]
    have hrevises (t t' : Text) (hhead : t'.head? = t.head?) (swaps' : List Swap)
        (rest : Revises ((Mode.ofLine inComment).after t.head? l) t t' swaps') :
        Revises (.ofLine inComment) (l ++ t) (g (readLine inComment l) ++ t')
          (swaps (readLine inComment l) ++ swaps') := by
      have hrevises := @Respells.revises _ _ _ hline t t' hhead swaps'
      rw [ScriptLine.readLine_inComment, ScriptLine.readLine_text] at hrevises
      exact hrevises rest
    rw [readLines_cons, List.flatMap_cons]
    by_cases hnil : ls = []
    · subst hnil
      have hlast := hrevises [] [] rfl [] (.done _)
      rw [List.append_nil, List.append_nil] at hlast
      rw [rewriteLines_cons]
      exact hlast
    · rw [Text.unlines_cons hnil, unlines_rewriteLines_cons g inComment hnil]
      refine hrevises _ _ (by rw [List.head?_cons, List.head?_cons]) _ ?_
      have hsettled : ((Mode.ofLine inComment).after none l).settled = true :=
        settled_after (by cases inComment <;> rfl) l
      rw [List.head?_cons, after_newline_ahead]
      refine .keep ((step_newline hsettled _).trans (step_newline hsettled _).symm) ?_
      rw [step_newline hsettled, entry_eq_ofLine, hleaves]
      exact ih hls

theorem revises_unlines {g : ScriptLine → Text} {swaps : ScriptLine → List Swap}
    (h : ∀ line : ScriptLine, line.IsRead → Respells line (g line) (swaps line)) {ls : List Text}
    (hls : ∀ l ∈ ls, Text.OneLine l) :
    Revises .start (Text.unlines ls) (Text.unlines (rewriteLines g false ls))
    ((readLines (.ofLine false) ls).flatMap swaps) :=
  @revises_rewriteLines g swaps h false ls hls

section Parts

variable {a b ls : List Text}

theorem leavesAll_eq (hls : ls ≠ []) (inComment : Bool) :
    leavesAll inComment ls = ((Mode.ofLine inComment).after none (Text.unlines ls)).inBlock := by
  induction ls generalizing inComment with
  | nil => exact absurd rfl hls
  | cons l ls ih =>
    have hsettled : ((Mode.ofLine inComment).after none l).settled = true :=
      settled_after (by cases inComment <;> rfl) l
    rw [leavesAll_cons]
    by_cases hnil : ls = []
    · subst hnil
      change (readLine inComment l).leaves l = _
      rw [ScriptLine.leaves, ScriptLine.readLine_inComment]
      rfl
    · rw [ih hnil, Text.unlines_cons hnil, after_append, List.head?_cons, Option.some_or,
        after_newline_ahead, Mode.after, step_newline hsettled, entry_eq_ofLine, ScriptLine.leaves,
        ScriptLine.readLine_inComment]

theorem Revises.leavesAll_rewriteLines {g : ScriptLine → Text} {swaps : List Swap}
    (h : Revises .start (Text.unlines ls) (Text.unlines (rewriteLines g false ls)) swaps) :
    leavesAll false (rewriteLines g false ls) = leavesAll false ls := by
  cases ls with
  | nil => rfl
  | cons l ls =>
    have hne : rewriteLines g false (l :: ls) ≠ [] := by
      rw [rewriteLines_cons]
      exact List.cons_ne_nil _ _
    rw [leavesAll_eq hne, leavesAll_eq (List.cons_ne_nil l ls)]
    exact h.inBlock_after

theorem notes_newline {x : Text} (hx : (Mode.start.after none x).inBlock = false) (y : Text) :
    notes (x ++ '\n' :: y) = notes x ++ notes y := by
  have hlands : Lands (Mode.start.after none x) ('\n' :: y).head? :=
    .inr ⟨settled_after rfl x, hx, .inr rfl⟩
  rw [notes, notesFrom_append (readsAlike_newline .start x).symm hlands atNote_start, ← notes]
  exact congrArg _ (notes_tame_append (a := ['\n']) (by decide) y).1

/-- Where no block comment goes on, the notes before and behind are those of the script. -/
theorem notes_unlines_append (h : leavesAll false a = false) (b : List Text) :
    notes (Text.unlines (a ++ b)) = notes (Text.unlines a) ++ notes (Text.unlines b) := by
  by_cases hb : b = []
  · subst hb
    rw [List.append_nil]
    exact (List.append_nil _).symm
  · by_cases ha : a = []
    · subst ha
      rfl
    · rw [Text.unlines_append ha hb, notes_newline]
      rw [← h, leavesAll_eq ha]
      rfl

end Parts

end PineTools
