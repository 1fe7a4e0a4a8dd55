import PineTools.Proofs.Scan.Notes
import PineTools.Proofs.Version.Markers

/-! A line that holds a comment and nothing else. The comment is its one note, and where no block
comment goes on before it none does behind it. A marker that stands outside comments is such a line.
-/
namespace PineTools

open Mode

section CommentLine

variable {b u : Text}

theorem notesFrom_line {m : Mode} (hm : m = .line ∨ m = .lineSecond) {current : Text}
    (hcurrent : current ≠ []) (hu : Text.OneLine u) :
    notesFrom m current u = [current ++ u] := by
  induction u generalizing m current with
  | nil =>
    rw [List.append_nil, notesFrom, notesUpTo, pendingNote, List.isEmpty_eq_false_iff.mpr hcurrent]
    rfl
  | cons c u ih =>
    have hc : c ≠ '\n' := hu.head
    have hstep : m.step c u.head? = (⟨c, .lineComment, false⟩, .line) := by
      rcases hm with rfl | rfl
      · rw [step, if_neg hc]
      · rfl
    have hnote : noteStep current c (⟨c, .lineComment, false⟩, .line) = ([], current ++ [c]) := rfl
    rw [notesFrom_cons, hstep, hnote,
      ih (.inl rfl) (List.append_ne_nil_of_right_ne_nil _ (List.cons_ne_nil c []))
      hu.tail, List.append_assoc]
    rfl

theorem notes_comment_line (hb : ∀ c ∈ b, Text.isBlank c = true) (hu : Text.OneLine u) :
    notes (b ++ ("//".toList ++ u)) = ["//".toList ++ u] := by
  rw [(notes_tame_append (tame_of_blanks hb) _).1]
  have hfirst : notes ("//".toList ++ u) = notesFrom .lineSecond ['/'] ('/' :: u) :=
    notesFrom_cons .start [] '/' ('/' :: u)
  have hline : Text.OneLine ('/' :: u) := fun k => (List.mem_cons.mp k).elim (by decide) hu
  rw [hfirst, notesFrom_line (.inr rfl) (List.cons_ne_nil _ _) hline]
  rfl

theorem leaves_comment_line (hb : ∀ c ∈ b, Text.isBlank c = true) (hu : Text.OneLine u) :
    (readLine false (b ++ ("//".toList ++ u))).leaves (b ++ ("//".toList ++ u)) = false := by
  rw [ScriptLine.leaves, ScriptLine.readLine_inComment, after_append]
  obtain ⟨k, e⟩ := after_code_blanks false (("//".toList ++ u).head?.or none) hb
  have hslashes : (Mode.code k).after none ("//".toList ++ u) = Mode.line.after none u := by
    cases k <;> rfl
  have hstart : Mode.ofLine false = .code false := rfl
  rw [hstart, e, hslashes]
  rcases after_line_comment (.inl rfl) none hu with e | e <;> rw [e] <;> rfl

end CommentLine

theorem exists_comment_of_marker {l : Text} (hl : isMarkerLine l = true) (hone : Text.OneLine l) :
    ∃ b u, (∀ c ∈ b, Text.isBlank c = true) ∧ Text.OneLine u ∧ l = b ++ ("//".toList ++ u) := by
  obtain ⟨h, x, rest, hh, -, rfl⟩ := (isMarkerLine_iff l).mp hl
  obtain ⟨b, q, hb, -, -, rfl⟩ := hh.slashes
  refine ⟨b, q ++ x :: rest, hb, fun k => hone ?_, by simp only [List.append_assoc]⟩
  rw [List.append_assoc, List.append_assoc]
  exact List.mem_append_right b (List.mem_append_right _ k)

end PineTools
