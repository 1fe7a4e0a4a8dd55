import Mathlib.Data.List.Basic
import PineTools.Proofs.Scan.Revision
import PineTools.Proofs.Version.Markers

/-! The first marker of a script when its code changes. A marker is a comment from its slashes on,
so whatever is written in a line from a place of code on, the line states what it stated. Edits that
begin at such places can be carried out one after the other. -/
namespace PineTools

open Reader Mode

/-- The number that the first marker among some lines states. -/
def statedNumber (ls : List Text) : Option Text := ls.findSome? marker.readAt?

theorem statedNumber_cons (l : Text) (ls : List Text) :
    statedNumber (l :: ls) = (marker.readAt? l).or (statedNumber ls) := by
  rw [statedNumber, List.findSome?_cons]
  cases marker.readAt? l <;> rfl

theorem statedNumber_append (a b : List Text) :
    statedNumber (a ++ b) = (statedNumber a).or (statedNumber b) :=
  List.findSome?_append

theorem statedNumber_singleton (l : Text) :
    statedNumber [l] = marker.readAt? l := List.findSome?_singleton

def firstMarker (t : Text) : Option Text := statedNumber (Text.lines t)

theorem detectVersion_firstMarker (t : Text) (fallback : ScriptVersion) :
    detectVersion t fallback = versionOfDigits fallback (firstMarker t) :=
  detectVersion_eq t fallback

theorem detectVersion_congr {t t' : Text} (h : firstMarker t' = firstMarker t)
    (fallback : ScriptVersion) :
    detectVersion t' fallback = detectVersion t fallback := by
  rw [detectVersion_firstMarker, detectVersion_firstMarker, h]

theorem findMarker_eq_none_iff (t : Text) : findMarker t = .ok none ↔ firstMarker t = none := by
  have hvalue : (marker.find? t).map Match.value = firstMarker t := find?_marker_value t
  rw [findMarker, ← hvalue]
  cases marker.find? t with
  | none => exact ⟨fun _ => rfl, fun _ => rfl⟩
  | some m =>
    refine ⟨fun h => ?_, fun h => by cases h⟩
    dsimp only at h
    split at h <;> cases h

section Lines

theorem firstMarker_oneLine {l : Text} (hl : Text.OneLine l) :
    firstMarker l = marker.readAt? l := by
  rw [firstMarker, Text.lines_of_oneLine hl, statedNumber_singleton]

theorem firstMarker_newline (a t : Text) :
    firstMarker (a ++ '\n' :: t) = (firstMarker a).or (firstMarker t) := by
  rw [firstMarker, Text.lines_append, statedNumber_append]
  rfl

/-- A text is some whole lines, and the last one as far as it goes. -/
theorem split_last_line (u : Text) :
    ∃ front l, u = front ++ l ∧ Text.OneLine l ∧ ∀ c ∈ front.getLast?, c = '\n' := by
  induction u using Text.lines_induction with
  | last l hl => exact ⟨[], l, rfl, hl, fun c hc => by cases hc⟩
  | more l t hl ih =>
    obtain ⟨front, l', rfl, hl', hfront⟩ := ih
    refine ⟨l ++ '\n' :: front, l', by
      rw [List.append_assoc, List.cons_append], hl', fun c hc => ?_⟩
    rw [List.getLast?_append_of_ne_nil _ (List.cons_ne_nil _ _)] at hc
    cases front with
    | nil => exact (Option.some.inj hc).symm
    | cons d ds =>
      rw [List.getLast?_cons_cons] at hc
      exact hfront c hc

theorem split_first_line (t : Text) :
    ∃ l behind, t = l ++ behind ∧ Text.OneLine l ∧ ∀ c ∈ behind.head?, c = '\n' := by
  induction t using Text.lines_induction with
  | last l hl => exact ⟨l, [], (List.append_nil l).symm, hl, fun c hc => by cases hc⟩
  | more l t hl ih => exact ⟨l, '\n' :: t, rfl, hl, fun c hc => (Option.some.inj hc).symm⟩

theorem firstMarker_front {front : Text} (h : ∀ c ∈ front.getLast?, c = '\n') :
    ∃ before : Option Text, ∀ t, firstMarker (front ++ t) = before.or (firstMarker t) := by
  rcases List.eq_nil_or_concat front with rfl | ⟨a, c, rfl⟩
  · exact ⟨none, fun t => rfl⟩
  · rw [List.concat_eq_append] at h ⊢
    obtain rfl := h c List.getLast?_concat
    exact ⟨firstMarker a, fun t => by
      rw [List.append_assoc, List.singleton_append, firstMarker_newline]⟩

theorem firstMarker_behind {behind : Text} (h : ∀ c ∈ behind.head?, c = '\n') :
    ∃ after : Option Text, ∀ l, Text.OneLine l → firstMarker (l ++ behind) =
      (marker.readAt? l).or after := by
  cases behind with
  | nil =>
    refine ⟨none, fun l hl => ?_⟩
    rw [List.append_nil, firstMarker_oneLine hl, Option.or_none]
  | cons c t =>
    obtain rfl := h c rfl
    exact ⟨firstMarker t, fun l hl => by rw [firstMarker_newline, firstMarker_oneLine hl]⟩

/-- A line is read from code or inside a block comment, wherever it stands. -/
theorem mode_at_line {front : Text} (h : ∀ c ∈ front.getLast?, c = '\n') :
    ∃ inComment, ∀ ahead, Mode.start.after ahead front = .ofLine inComment := by
  rcases List.eq_nil_or_concat front with rfl | ⟨a, c, rfl⟩
  · exact ⟨false, fun ahead => rfl⟩
  · rw [List.concat_eq_append] at h ⊢
    obtain rfl := h c List.getLast?_concat
    refine ⟨(Mode.start.after (some '\n') a).inBlock, fun ahead => ?_⟩
    have hsettled : (Mode.start.after (some '\n') a).settled = true := by
      rw [after_newline_ahead]
      exact settled_after rfl a
    rw [after_concat, step_newline hsettled, Mode.entry_eq_ofLine]

end Lines

theorem inCode_between_slashes (inComment : Bool) {b : Text} (hb : ∀ c ∈ b, Text.isBlank c = true) :
    ((Mode.ofLine inComment).after (some '/') (b ++ ['/'])).inCode = false := by
  rw [after_concat]
  cases inComment with
  | true =>
    rw [ofLine, if_pos rfl, after_block_comment (some '/') fun k => absurd (hb _ k) (by decide)]
    rfl
  | false =>
    obtain ⟨b', e⟩ := after_code_blanks false (some '/') hb
    rw [ofLine, if_neg Bool.false_ne_true, e]
    cases b' <;> rfl

/-- A place of a line, with what goes on there, from which on the marker does not matter: it lies in
code, and something other than a blank stands before it, or neither a blank nor a slash behind it.
-/
def MarkerFree (m : Mode) (v x : Text) : Prop := (m.after x.head? v).inCode = true ∧
  ((∃ c, v.getLast? = some c ∧ Text.isBlank c = false) ∨ ∃ c, x.head? = some c ∧ Text.isBlank c =
    false ∧ c ≠ '/')

/-- Such a place stands neither before the slashes of a marker, nor between them. -/
theorem MarkerFree.not_before_slashes {inComment : Bool} {b v x w rest : Text}
    (hfree : MarkerFree (.ofLine inComment) v x) (hb : ∀ c ∈ b, Text.isBlank c = true)
    (hw : b ++ "//".toList = v ++ w) (hx : x = w ++ rest) : w = [] := by
  obtain ⟨hcode, hplace⟩ := hfree
  have hslashes : "//".toList = ['/', '/'] := rfl
  refine Classical.byContradiction fun hne => ?_
  rcases List.append_eq_append_iff.mp hw with ⟨w', hv, hw'⟩ | ⟨w', hb', hw'⟩
  · rw [hslashes] at hw'
    match w', hw' with
    | [], hw' =>
      rw [List.append_nil] at hv
      rw [List.nil_append] at hw'
      subst hv hw'
      rcases hplace with ⟨c, hc, hblank⟩ | ⟨c, hc, -, hslash⟩
      · rw [hb c (List.mem_of_getLast? hc)] at hblank
        cases hblank
      · rw [hx] at hc
        exact hslash (Option.some.inj hc).symm
    | [c], hw' =>
      cases hw'
      rw [hv, hx, List.cons_append, List.head?_cons, inCode_between_slashes inComment hb] at hcode
      cases hcode
    | [c, d], hw' =>
      cases hw'
      exact hne rfl
  · rcases hplace with ⟨c, hc, hblank⟩ | ⟨c, hc, hblank, hslash⟩
    · rw [hb c (hb' ▸ List.mem_append_left w' (List.mem_of_getLast? hc))] at hblank
      cases hblank
    · rw [hx, hw'] at hc
      cases w' with
      | nil => exact hslash (Option.some.inj hc).symm
      | cons d w' =>
        obtain rfl : d = c := Option.some.inj hc
        rw [hb d (hb' ▸ List.mem_append_right v List.mem_cons_self)] at hblank
        cases hblank

/-- At a place of code a line states its version before that place or not at all. -/
theorem MarkerFree.readAt? {inComment : Bool} {v x : Text}
    (hfree : MarkerFree (.ofLine inComment) v x) {digits : Text}
    (h : marker.readAt? (v ++ x) = some digits) (x' : Text) :
    marker.readAt? (v ++ x') = some digits := by
  obtain ⟨h, rest, hh, hne, hdigits, hrest, e⟩ := readAt?_marker_iff.mp h
  obtain ⟨b, q, hb, hq, hstar, hsplit⟩ := hh.slashes
  have hsign {c : Char} (hc : Text.isDecimal c = false) (hcq : c ∉ q) : c ∉ q ++ digits :=
    fun k => by
    rcases List.mem_append.mp k with k | k
    · exact hcq k
    · rw [hdigits c k] at hc
      cases hc
  -- From the slashes on up to the last digit there is no code.
  have hbehind {w w' : Text} (hw : q ++ digits = w ++ w')
      (hv : v = b ++ "//".toList ++ w) : False := by
    have hcode := inCode_after_slashes inComment x.head? hb
      (fun k => hsign (by decide) hq (by rw [hw]; exact List.mem_append_left w' k))
      (fun k => hsign (by decide) hstar (by rw [hw]; exact List.mem_append_left w' k))
    rw [← List.append_assoc, ← hv, hfree.1] at hcode
    cases hcode
  have hparts : v ++ x = (b ++ "//".toList) ++ ((q ++ digits) ++ rest) := by
    rw [e, hsplit]
    simp only [List.append_assoc]
  rcases List.append_eq_append_iff.mp hparts with ⟨w, hw, hx⟩ | ⟨w, hv, hw⟩
  · obtain rfl := hfree.not_before_slashes hb hw hx
    rw [List.append_nil] at hw
    exact (@hbehind [] (q ++ digits) rfl (by rw [hw, List.append_nil])).elim
  · rcases List.append_eq_append_iff.mp hw with ⟨w', hw', hr⟩ | ⟨w', hw', hx⟩
    · cases w' with
      | nil => exact (@hbehind w [] (by rw [hw', List.append_nil, List.append_nil]) hv).elim
      | cons c w' =>
        -- The marker ends before the place.
        refine readAt?_marker_iff.mpr ⟨h, c :: w' ++ x', hh, hne, hdigits, fun d hd =>
          hrest d ?_, ?_⟩
        · rw [hr]
          exact hd
        · rw [hv, hw', hsplit]
          simp only [List.append_assoc]
    · exact (hbehind hw' hv).elim

/-- What goes on at such a place does not matter. -/
theorem readAt?_marker_congr {inComment : Bool} {v x x' : Text}
    (h : MarkerFree (.ofLine inComment) v x) (h' : MarkerFree (.ofLine inComment) v x') :
    marker.readAt? (v ++ x) = marker.readAt? (v ++ x') := by
  cases hx : marker.readAt? (v ++ x) with
  | some digits => exact (h.readAt? hx x').symm
  | none =>
    cases hx' : marker.readAt? (v ++ x') with
    | none => rfl
    | some digits =>
      rw [h'.readAt? hx' x] at hx
      cases hx

/-- A place of a script, with what goes on there, from which on the marker does not matter. -/
def MarkerFreeAt (u y : Text) : Prop := (Mode.start.after y.head? u).inCode = true ∧
  ((∃ c, u.getLast? = some c ∧ Text.isBlank c = false ∧ c ≠ '\n') ∨
    ∃ c, y.head? = some c ∧ Text.isBlank c = false ∧ c ≠ '/' ∧ c ≠ '\n')

theorem MarkerFreeAt.line {front l p behind : Text} {inComment : Bool}
    (h : MarkerFreeAt (front ++ l) (p ++ behind)) (hfront : ∀ c ∈ front.getLast?, c = '\n')
    (hmode : ∀ ahead, Mode.start.after ahead front = .ofLine inComment)
    (hbehind : ∀ c ∈ behind.head?, c = '\n') : MarkerFree (.ofLine inComment) l p := by
  obtain ⟨hcode, hplace⟩ := h
  have hhead : p.head? = (p ++ behind).head? ∨ p.head? = none ∧
      ((p ++ behind).head? = none ∨ (p ++ behind).head? = some '\n') := by
    cases p with
    | cons c p => exact .inl rfl
    | nil =>
      refine .inr ⟨rfl, ?_⟩
      cases behind with
      | nil => exact .inl rfl
      | cons c behind => exact .inr (congrArg some (hbehind c rfl))
  rw [after_append, hmode] at hcode
  refine ⟨?_, ?_⟩
  · rcases hhead with e | ⟨e, e' | e'⟩
    · rwa [e]
    · rwa [e, ← e']
    · rw [e', after_newline_ahead] at hcode
      rwa [e]
  · rcases hplace with ⟨c, hc, hblank, hn⟩ | ⟨c, hc, hblank, hslash, hn⟩
    · refine .inl ⟨c, ?_, hblank⟩
      cases l with
      | nil =>
        rw [List.append_nil] at hc
        exact absurd (hfront c hc) hn
      | cons d l => rwa [List.getLast?_append_of_ne_nil _ (List.cons_ne_nil _ _)] at hc
    · refine .inr ⟨c, ?_, hblank, hslash⟩
      rcases hhead with e | ⟨-, e' | e'⟩
      · rwa [e]
      · rw [hc] at e'
        cases e'
      · rw [hc] at e'
        exact absurd (Option.some.inj e') hn

/-- What goes on in the line at such a place does not matter for the first marker. -/
theorem firstMarker_congr {u p p' back : Text} (hp : Text.OneLine p) (hp' : Text.OneLine p')
    (h : MarkerFreeAt u (p ++ back)) (h' : MarkerFreeAt u (p' ++ back)) :
    firstMarker (u ++ (p ++ back)) = firstMarker (u ++ (p' ++ back)) := by
  obtain ⟨front, l, rfl, hl, hfront⟩ := split_last_line u
  obtain ⟨r, behind, rfl, hr, hbehind⟩ := split_first_line back
  obtain ⟨inComment, hmode⟩ := mode_at_line hfront
  obtain ⟨before, hbefore⟩ := firstMarker_front hfront
  obtain ⟨after, hafter⟩ := firstMarker_behind hbehind
  rw [← List.append_assoc p] at h ⊢
  rw [← List.append_assoc p'] at h' ⊢
  have hone {p : Text} (hp : Text.OneLine p) : Text.OneLine (l ++ (p ++ r)) :=
    Text.oneLine_append.mpr ⟨hl, Text.oneLine_append.mpr ⟨hp, hr⟩⟩
  have hwhole (p : Text) : front ++ l ++ (p ++ r ++ behind) =
      front ++ ((l ++ (p ++ r)) ++ behind) := by
    simp only [List.append_assoc]
  rw [hwhole p, hwhole p', hbefore, hbefore, hafter _ (hone hp), hafter _ (hone hp'),
    readAt?_marker_congr (h.line hfront hmode hbehind) (h'.line hfront hmode hbehind)]

namespace Edit

/-- Carried out in front of any text that begins as the rest of the script does, the edit keeps the
first marker. -/
def KeepsMarker (t : Text) (e : Edit) : Prop := ∀ back : Text, back.head? = (t.drop e.stop).head? →
  firstMarker (t.take e.start ++ (e.replacement ++ back)) = firstMarker (t.take e.stop ++ back)

theorem firstMarker_splice {t : Text} {offset : Nat} {es : List Edit}
    (ho : Ordered t.length offset es) (h : ∀ e ∈ es, KeepsMarker t e) :
    firstMarker (t.take offset ++ splice t offset es) = firstMarker t := by
  induction es generalizing offset with
  | nil => rw [splice, List.take_append_drop]
  | cons e es ih =>
    obtain ⟨hstart, -, -, hrest⟩ := ho
    obtain ⟨he, hes⟩ := List.forall_mem_cons.mp h
    have hwhole : t.take offset ++ splice t offset (e :: es) = t.take e.start ++
        (e.replacement ++ splice t e.stop es) := by
      rw [splice, ← take_append_slice t hstart]
      simp only [List.append_assoc]
    rw [hwhole, he _ (head?_splice t hrest), ih (hrest.weaken (Nat.le_succ _)) hes]

/-- An edit of a line that begins in code, and there behind something other than a blank, or with
neither a blank nor a slash before and after it is carried out. -/
theorem Sound.keepsMarker {t : Text} {e : Edit} (h : Sound t e) (hle : e.start ≤ e.stop)
    (hold : Text.OneLine (Text.slice t e.start e.stop)) (hnew : Text.OneLine e.replacement)
    (hplace : (∃ c, (t.take e.start).getLast? = some c ∧ Text.isBlank c = false ∧ c ≠ '\n') ∨
      (∃ c, (Text.slice t e.start e.stop).head? = some c ∧ Text.isBlank c = false ∧
        c ≠ '/' ∧ c ≠ '\n') ∧
        ∃ c, e.replacement.head? = some c ∧ Text.isBlank c = false ∧ c ≠ '/' ∧ c ≠ '\n') :
          KeepsMarker t e := by
  intro back hback
  have hfirst {p : Text} {c : Char} (hc : p.head? = some c) : (p ++ back).head? = some c := by
    rw [List.head?_append, hc]
    rfl
  have hsame (p : Text) : (p ++ back).head? = (p ++ t.drop e.stop).head? := by
    rw [List.head?_append, List.head?_append, hback]
  obtain ⟨b, hb⟩ := h.begins.exists_code
  have hmode : Mode.start.after (e.replacement ++ t.drop e.stop).head? (t.take e.start) = .code b :=
    (readsAlike_of_code hb h.before).2.symm.trans hb
  rw [modeAt, ← slice_append_drop t hle] at hb
  rw [← take_append_slice t hle, List.append_assoc]
  refine firstMarker_congr hnew hold ⟨?_, ?_⟩ ⟨?_, ?_⟩
  · rw [hsame, hmode]
    rfl
  · exact hplace.imp id fun hheads => hheads.2.imp fun c hc => ⟨hfirst hc.1, hc.2⟩
  · rw [hsame, hb]
    rfl
  · exact hplace.imp id fun hheads => hheads.1.imp fun c hc => ⟨hfirst hc.1, hc.2⟩

end Edit

end PineTools
