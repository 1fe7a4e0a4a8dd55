import PineTools.Text.Basic

namespace PineTools.Text

/-- A test of every character of a text is carried out on the text, not on all characters there are.
-/
instance (priority := 2000) decidableForallMem (p : Char → Prop) [DecidablePred p] (t : Text) :
    Decidable (∀ c ∈ t, p c) :=
  List.decidableBAll p t

def OneLine (l : Text) : Prop := '\n' ∉ l

instance (l : Text) : Decidable (OneLine l) := inferInstanceAs (Decidable ('\n' ∉ l))

theorem OneLine.head {c : Char} {cs : Text} (h : OneLine (c :: cs)) : c ≠ '\n' :=
  (List.ne_of_not_mem_cons h).symm

theorem OneLine.tail {c : Char} {cs : Text} (h : OneLine (c :: cs)) : OneLine cs :=
  List.not_mem_of_not_mem_cons h

theorem oneLine_append {a b : Text} : OneLine (a ++ b) ↔ OneLine a ∧ OneLine b := by
  rw [OneLine, List.mem_append, not_or]
  rfl

theorem lines_ne_nil (t : Text) : lines t ≠ [] := by
  cases t with
  | nil => exact List.cons_ne_nil _ _
  | cons c cs =>
    rw [lines]
    split
    · exact List.cons_ne_nil _ _
    · split <;> exact List.cons_ne_nil _ _

theorem lines_newline (t : Text) : lines ('\n' :: t) = [] :: lines t := by
  rw [lines, if_pos rfl]

theorem lines_of_oneLine {l : Text} (h : OneLine l) : lines l = [l] := by
  induction l with
  | nil => rfl
  | cons c cs ih =>
    rw [lines, if_neg h.head, ih h.tail]

theorem lines_append_newline {l : Text} (h : OneLine l) (t : Text) :
    lines (l ++ '\n' :: t) = l :: lines t := by
  induction l with
  | nil => exact lines_newline t
  | cons c cs ih =>
    rw [List.cons_append, lines, if_neg h.head, ih h.tail]

theorem oneLine_of_mem_lines {t l : Text} (h : l ∈ lines t) : OneLine l := by
  fun_induction lines t generalizing l with
  | case1 =>
    rw [List.mem_singleton.mp h]
    exact List.not_mem_nil
  | case2 cs ih =>
    rcases List.mem_cons.mp h with rfl | h
    · exact List.not_mem_nil
    · exact ih h
  | case3 c cs hc hnil ih => exact absurd hnil (lines_ne_nil cs)
  | case4 c cs hc l' ls hls ih =>
    rcases List.mem_cons.mp h with rfl | h
    · intro m
      rcases List.mem_cons.mp m with e | m
      · exact hc e.symm
      · exact ih (hls ▸ List.mem_cons_self) m
    · exact ih (hls ▸ List.mem_cons_of_mem l' h)

theorem unlines_cons {ls : List Text} (h : ls ≠ []) (l : Text) :
    unlines (l :: ls) = l ++ '\n' :: unlines ls := by
  cases ls with
  | nil => exact absurd rfl h
  | cons => rfl

theorem unlines_append {a b : List Text} (ha : a ≠ []) (hb : b ≠ []) :
    unlines (a ++ b) = unlines a ++ '\n' :: unlines b := by
  induction a with
  | nil => exact absurd rfl ha
  | cons l a ih =>
    by_cases hnil : a = []
    · subst hnil
      exact unlines_cons hb l
    · rw [List.cons_append, unlines_cons (List.append_ne_nil_of_left_ne_nil hnil b), ih hnil,
        unlines_cons hnil, List.append_assoc, List.cons_append]

theorem unlines_lines (t : Text) : unlines (lines t) = t := by
  fun_induction lines t with
  | case1 => rfl
  | case2 cs ih => rw [unlines_cons (lines_ne_nil cs), ih, List.nil_append]
  | case3 c cs hc hnil ih => exact absurd hnil (lines_ne_nil cs)
  | case4 c cs hc l ls hls ih =>
    rw [hls] at ih
    cases ls with
    | nil => exact congrArg (c :: ·) ih
    | cons => exact congrArg (c :: ·) ih

theorem lines_unlines {ls : List Text} (hne : ls ≠ []) (h : ∀ l ∈ ls, OneLine l) :
    lines (unlines ls) = ls := by
  induction ls with
  | nil => exact absurd rfl hne
  | cons l ls ih =>
    have hl := h l List.mem_cons_self
    by_cases hls : ls = []
    · subst hls
      exact lines_of_oneLine hl
    · rw [unlines_cons hls, lines_append_newline hl, ih hls fun l' m =>
        h l' (List.mem_cons_of_mem l m)]

/-- A text with no newline is cut off at the first newline of a longer text; the induction over
lines. -/
theorem lines_induction {motive : Text → Prop} (last : ∀ l, OneLine l → motive l)
    (more : ∀ l t, OneLine l → motive t → motive (l ++ '\n' :: t)) (t : Text) : motive t := by
  suffices ∀ ls : List Text, ls ≠ [] → (∀ l ∈ ls, OneLine l) → motive (unlines ls) by
    have h := this (lines t) (lines_ne_nil t) fun l m => oneLine_of_mem_lines m
    rwa [unlines_lines] at h
  intro ls hne h
  induction ls with
  | nil => exact absurd rfl hne
  | cons l ls ih =>
    by_cases hls : ls = []
    · subst hls
      exact last l (h l List.mem_cons_self)
    · rw [unlines_cons hls]
      exact more l _ (h l List.mem_cons_self) (ih hls fun l' m => h l' (List.mem_cons_of_mem l m))

theorem lines_append (a t : Text) : lines (a ++ '\n' :: t) = lines a ++ lines t := by
  induction a using lines_induction with
  | last l hl => rw [lines_append_newline hl, lines_of_oneLine hl, List.singleton_append]
  | more l a hl ih => rw [List.append_assoc, List.cons_append, lines_append_newline hl, ih,
      lines_append_newline hl, List.cons_append]

theorem lines_unlines_insert {before after : List Text} (hbefore : ∀ l ∈ before, OneLine l)
    (hafter : ∀ l ∈ after, OneLine l) (t : Text) : lines (unlines (before ++ t :: after)) =
      before ++ (lines t ++ after) := by
  induction before with
  | nil =>
    cases after with
    | nil => exact (List.append_nil _).symm
    | cons l after =>
      rw [List.nil_append, unlines_cons (List.cons_ne_nil l after), lines_append,
        lines_unlines (List.cons_ne_nil l after) hafter]
      rfl
  | cons l before ih =>
    obtain ⟨hl, hbefore⟩ := List.forall_mem_cons.mp hbefore
    rw [List.cons_append, unlines_cons (by simp), lines_append_newline hl, ih hbefore,
      List.cons_append]

def solid (t : Text) : Text := t.filter fun c => !isSpace c

/-- Texts that begin with characters of one kind, and go on without one, are cut there in one way.
-/
theorem run_append_inj {p : Char → Bool} {a b x y : Text} (ha : ∀ c ∈ a, p c = true)
    (hb : ∀ c ∈ b, p c = true) (hx : x.head?.any p = false) (hy : y.head?.any p = false)
    (e : a ++ x = b ++ y) : a = b ∧ x = y := by
  have htake {a x : Text} (ha : ∀ c ∈ a, p c = true) (hx : x.head?.any p = false) :
      (a ++ x).takeWhile p = a := by
    rw [List.takeWhile_append_of_pos ha]
    cases x with
    | nil => simp
    | cons c cs => rw [List.takeWhile_cons_of_neg (by simpa using hx), List.append_nil]
  have hab : a = b := by rw [← htake ha hx, e, htake hb hy]
  subst hab
  exact ⟨rfl, List.append_cancel_left e⟩

theorem isSpace_newline : isSpace '\n' = true := by decide

theorem isSpace_of_isBlank {c : Char} (h : isBlank c = true) : isSpace c = true := by
  rw [isBlank, Bool.or_eq_true, beq_iff_eq, beq_iff_eq] at h
  rcases h with rfl | rfl <;> decide

theorem white_of_blanks {t : Text} (h : ∀ c ∈ t, isBlank c = true) : ∀ c ∈ t, isSpace c = true :=
  fun c hc => isSpace_of_isBlank (h c hc)

theorem isBlank_eq_false (p : Char → Bool) (hspace : p ' ' = false) (htab : p '\t' = false)
    {c : Char} (h : p c = true) :
    isBlank c = false := by
  refine Bool.eq_false_iff.mpr fun hb => ?_
  rw [isBlank, Bool.or_eq_true, beq_iff_eq, beq_iff_eq] at hb
  rcases hb with rfl | rfl
  · exact absurd h (Bool.eq_false_iff.mp hspace)
  · exact absurd h (Bool.eq_false_iff.mp htab)

@[simp] theorem solid_nil : solid [] = [] := rfl

@[simp] theorem solid_append (a b : Text) :
    solid (a ++ b) = solid a ++ solid b := List.filter_append ..

theorem solid_cons (c : Char) (t : Text) :
    solid (c :: t) = if isSpace c then solid t else c :: solid t := by
  rw [solid, List.filter_cons]
  cases isSpace c <;> rfl

theorem solid_eq_nil {t : Text} (h : ∀ c ∈ t, isSpace c = true) : solid t = [] := by
  refine List.filter_eq_nil_iff.mpr fun c hc => ?_
  rw [h c hc]
  decide

theorem solid_eq_nil_of_isAllSpace {t : Text} (h : isAllSpace t = true) : solid t = [] :=
  solid_eq_nil (List.all_eq_true.mp h)

theorem isAllSpace_iff (t : Text) : isAllSpace t = true ↔ solid t = [] := by
  refine ⟨solid_eq_nil_of_isAllSpace, fun h => List.all_eq_true.mpr fun c hc => ?_⟩
  have := List.filter_eq_nil_iff.mp h c hc
  simpa using this

theorem isAllSpace_of_solid {a b : Text} (h : solid a = solid b) : isAllSpace a = isAllSpace b := by
  rw [Bool.eq_iff_iff, isAllSpace_iff, isAllSpace_iff, h]

theorem isAllSpace_of_mem {t : Text} {c : Char} (hc : c ∈ t) (h : isSpace c = false) :
    isAllSpace t = false := by
  refine Bool.eq_false_iff.mpr fun hall => ?_
  rw [List.all_eq_true.mp hall c hc] at h
  cases h

theorem solid_newline_cons (t : Text) : solid ('\n' :: t) = solid t := by
  rw [solid_cons, if_pos isSpace_newline]

theorem solid_unlines (ls : List Text) : solid (unlines ls) = (ls.map solid).flatten := by
  induction ls with
  | nil => rfl
  | cons l ls ih =>
    by_cases hls : ls = []
    · subst hls
      exact (List.append_nil _).symm
    · rw [unlines_cons hls, solid_append, solid_newline_cons, ih]
      rfl

theorem solid_lines (t : Text) : ((lines t).map solid).flatten = solid t := by
  rw [← solid_unlines, unlines_lines]

theorem trimRight_append_white {α : Type} (p : α → Bool) (xs : List α) :
    ∃ white, xs = trimRight p xs ++ white ∧ ∀ x ∈ white, p x = true := by
  refine ⟨(xs.reverse.takeWhile p).reverse, ?_, ?_⟩
  · rw [trimRight, ← List.reverse_append, List.takeWhile_append_dropWhile, List.reverse_reverse]
  · intro x hx
    rw [List.mem_reverse] at hx
    exact List.all_eq_true.mp List.all_takeWhile x hx

theorem white_or_mem_strip {x : Text} {c : Char} (h : c ∈ x) : isSpace c = true ∨ c ∈ strip x := by
  rw [← @List.takeWhile_append_dropWhile _ isSpace x] at h
  rcases List.mem_append.mp h with h | h
  · exact .inl (List.all_eq_true.mp List.all_takeWhile c h)
  · obtain ⟨white, e, hwhite⟩ := trimRight_append_white isSpace (x.dropWhile isSpace)
    rw [e] at h
    rcases List.mem_append.mp h with h | h
    · exact .inr h
    · exact .inl (hwhite c h)

theorem mem_of_mem_trimRight {α : Type} {p : α → Bool} {xs : List α} {x : α}
    (h : x ∈ trimRight p xs) : x ∈ xs := by
  obtain ⟨white, e, -⟩ := trimRight_append_white p xs
  rw [e]
  exact List.mem_append_left white h

theorem trimRight_getLast? {α : Type} {p : α → Bool} {xs : List α} {x : α}
    (h : (trimRight p xs).getLast? = some x) :
    p x = false := by
  rw [trimRight, List.getLast?_reverse] at h
  have := List.head?_dropWhile_not p xs.reverse
  rw [h] at this
  simpa using this

theorem trimRight_eq_self {α : Type} {p : α → Bool} {xs : List α} (h : ∀ x, xs.getLast? = some x →
    p x = false) :
    trimRight p xs = xs := by
  obtain ⟨white, e, hwhite⟩ := trimRight_append_white p xs
  rcases List.eq_nil_or_concat white with rfl | ⟨init, w, rfl⟩
  · rw [List.append_nil] at e
    exact e.symm
  · rw [List.concat_eq_append] at e hwhite
    have hlast : xs.getLast? = some w := by
      rw [e, ← List.append_assoc, List.getLast?_concat]
    have := hwhite w (List.mem_append_right init (List.mem_singleton_self w))
    rw [h w hlast] at this
    cases this

theorem oneLine_trimRight {l : Text} (h : OneLine l) (p : Char → Bool) : OneLine (trimRight p l) :=
  fun m => h (mem_of_mem_trimRight m)

@[simp] theorem solid_trimRight (t : Text) : solid (trimRight isSpace t) = solid t := by
  obtain ⟨white, e, hw⟩ := trimRight_append_white isSpace t
  calc solid (trimRight isSpace t) = solid (trimRight isSpace t ++ white) := by
        rw [solid_append, solid_eq_nil hw, List.append_nil]
    _ = solid t := by rw [← e]

theorem solid_normalizeBreaks (t : Text) : solid (normalizeBreaks t) = solid t := by
  fun_induction normalizeBreaks t with
  | case1 => rfl
  | case2 cs ih =>
    rw [solid_newline_cons, ih, solid_cons, if_pos (by decide), solid_newline_cons]
  | case3 c cs hcr ih =>
    by_cases hc : c = '\r'
    · subst hc
      rw [if_pos rfl, solid_newline_cons, ih, solid_cons, if_pos (by decide)]
    · rw [if_neg hc, solid_cons, solid_cons, ih]

theorem normalizeBreaks_of_not_mem {t : Text} (h : '\r' ∉ t) : normalizeBreaks t = t := by
  fun_induction normalizeBreaks t with
  | case1 => rfl
  | case2 cs ih => exact absurd List.mem_cons_self h
  | case3 c cs hcr ih =>
    have hc : c ≠ '\r' := fun e => h (e ▸ List.mem_cons_self)
    rw [if_neg hc, ih fun m => h (List.mem_cons_of_mem c m)]

end PineTools.Text
