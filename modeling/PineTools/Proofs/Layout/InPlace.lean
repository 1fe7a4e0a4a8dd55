import PineTools.Proofs.Layout.Tidy

/-! Lines of code in place. A line is left alone by the layout exactly when it stands at the level
that the lines before it give it, or continues an expression, and its tokens, read again, stand at
their canonical distances. -/
namespace PineTools.Layout

def Token.written (t : Token) : Text := t.gap ++ t.text

/-- The tokens after a given one stand at their canonical distances. -/
def SpacedAfter (options : FormatOptions) (p : Token) : List Token → Prop
  | [] => True
  | t :: ts => t.gap = separator options p t ∧ SpacedAfter options t ts

/-- The tokens of a line stand at their canonical distances. -/
def Spaced (options : FormatOptions) : List Token → Prop
  | [] => True
  | t :: ts => SpacedAfter options t ts

/-- A token as a line has it: it is set off by blanks and, unless it is a comment, does not start
with one. -/
structure Token.Proper (t : Token) : Prop where
  gap : ∀ c ∈ t.gap, Text.isBlank c = true
  nonempty : t.text ≠ []
  start : t.kind ≠ .comment → t.text.head?.any Text.isBlank = false

theorem Tokenized.proper {m : Mode} {gap t : Text} {ts : List Token} (h : Tokenized m gap t ts)
    (hgap : ∀ c ∈ gap, Text.isBlank c = true) : ∀ t ∈ ts, t.Proper := by
  induction h with
  | nil => exact List.forall_mem_nil _
  | blank hc _ ih => exact ih (List.forall_mem_append.mpr ⟨hgap, List.forall_mem_singleton.mpr hc⟩)
  | token _ _ hstart _ _ ih =>
    refine List.forall_mem_cons.mpr ⟨⟨hgap, List.cons_ne_nil _ _, hstart⟩,
      ih (List.forall_mem_nil _)⟩

theorem Tokenized.written {m : Mode} {gap t : Text} {ts : List Token} (h : Tokenized m gap t ts)
    (hgap : ∀ c ∈ gap, Text.isBlank c = true) :
    ∃ tail, (∀ c ∈ tail, Text.isBlank c = true) ∧ gap ++ t =
      (ts.map Token.written).flatten ++ tail := by
  induction h with
  | nil m gap => exact ⟨gap, hgap, List.append_nil gap⟩
  | @blank b gap c cs ts hc _ ih =>
    obtain ⟨tail, htail, e⟩ :=
      ih (List.forall_mem_append.mpr ⟨hgap, List.forall_mem_singleton.mpr hc⟩)
    exact ⟨tail, htail, by rw [← e, List.append_assoc]; rfl⟩
  | @token m gap c cs kind n ts _ _ _ _ _ ih =>
    obtain ⟨tail, htail, e⟩ := ih (List.forall_mem_nil _)
    refine ⟨tail, htail, ?_⟩
    rw [List.map_cons, List.flatten_cons, List.append_assoc, ← e, Token.written, List.append_assoc,
      List.nil_append, List.cons_append, List.take_append_drop]

theorem AllRoled.written {ts ts' : List Token} (h : AllRoled ts ts') :
    ts'.map Token.written = ts.map Token.written := by
  induction h with
  | nil => rfl
  | cons hroled _ ih => rw [List.map_cons, List.map_cons, ih, Token.written, Token.written,
      hroled.gap, hroled.text]

theorem AllRoled.proper {ts ts' : List Token} (h : AllRoled ts ts') (hts : ∀ t ∈ ts, t.Proper) :
    ∀ t ∈ ts', t.Proper := by
  induction h with
  | nil => exact hts
  | @cons t t' ts ts' hroled _ ih =>
    obtain ⟨ht, hrest⟩ := List.forall_mem_cons.mp hts
    refine List.forall_mem_cons.mpr ⟨⟨?_, ?_, fun hk => ?_⟩, ih hrest⟩
    · rw [hroled.gap]
      exact ht.gap
    · rw [hroled.text]
      exact ht.nonempty
    · rw [hroled.text]
      exact ht.start (hroled.kind ▸ hk)

theorem joinAfter_eq_iff (options : FormatOptions) (p : Token) {ts : List Token}
    (h : ∀ t ∈ ts, t.Proper) :
    joinAfter options p ts = (ts.map Token.written).flatten ↔ SpacedAfter options p ts := by
  induction ts generalizing p with
  | nil => exact iff_of_true rfl trivial
  | cons t ts ih =>
    obtain ⟨ht, hts⟩ := List.forall_mem_cons.mp h
    rw [joinAfter, List.map_cons, List.flatten_cons, Token.written, SpacedAfter, ← ih t hts]
    constructor
    · intro e
      by_cases hcomment : t.kind = .comment
      · rw [separator_comment options p hcomment] at e
        exact ⟨(separator_comment options p hcomment).symm, List.append_cancel_left e⟩
      · have hstart (x : Text) : (t.text ++ x).head?.any Text.isBlank = false := by
          obtain ⟨c, cs, e⟩ := List.exists_cons_of_ne_nil ht.nonempty
          have := ht.start hcomment
          rw [e] at this ⊢
          exact this
        rw [List.append_assoc, List.append_assoc] at e
        obtain ⟨hsep, hrest⟩ := Text.run_append_inj (blank_of_separator options p ht.gap) ht.gap
          (hstart _) (hstart _) e
        exact ⟨hsep.symm, List.append_cancel_left hrest⟩
    · rintro ⟨hgap, hrest⟩
      rw [← hgap, hrest]

/-- Canonical spaces leave the end of a line as it was. -/
theorem getLast?_joinAfter (options : FormatOptions) {t : Token} {ts : List Token}
    (h : ∀ u ∈ ts, u.Proper) :
    (t.text ++ joinAfter options t ts).getLast? =
      (t.text ++ (ts.map Token.written).flatten).getLast? := by
  induction ts generalizing t with
  | nil => rfl
  | cons u us ih =>
    obtain ⟨hu, hus⟩ := List.forall_mem_cons.mp h
    have hlast (a x : Text) : (a ++ (u.text ++ x)).getLast? = (u.text ++ x).getLast? := by
      rw [List.getLast?_append, List.getLast?_eq_some_getLast
        (List.append_ne_nil_of_left_ne_nil hu.nonempty x), Option.some_or]
    rw [joinAfter, List.map_cons, List.flatten_cons, Token.written, List.append_assoc,
      List.append_assoc, ← List.append_assoc t.text, ← List.append_assoc t.text, hlast,
      hlast, ih hus]

theorem spaceLine_parts (options : FormatOptions) (opened : List Char) {c : Char} {cs : Text}
    (ht : Text.OneLine (c :: cs)) (hc : Text.isBlank c = false) (htrim : Trimmed (c :: cs)) :
    ∃ t ts, assignRoles opened none none 0 (tokens (cellsFrom (.code false) (c :: cs))) = t :: ts ∧
      (∀ u ∈ ts, u.Proper) ∧ c :: cs = t.text ++ (ts.map Token.written).flatten ∧
      t.text.head? = some c ∧
      spaceLine options opened (cellsFrom (.code false) (c :: cs)) = t.text ++
        joinAfter options t ts := by
  have hblank : (((Mode.code false).step c cs.head?).1.isCode && Text.isBlank c) = false := by
    rw [hc, Bool.and_false]
  have tokenized := tokenized_tokensAfter (.inr ⟨false, rfl⟩) [] ht
  have roled :=
    allRoled_assignRoles opened none none
      (anglesNext_zero (tokens (cellsFrom (.code false) (c :: cs))))
  have nothing : ∀ c ∈ ([] : Text), Text.isBlank c = true := List.forall_mem_nil _
  obtain ⟨tail, htail, hwritten⟩ := tokenized.written nothing
  have hproper := roled.proper (tokenized.proper nothing)
  rw [← tokens, ← roled.written] at hwritten
  rw [spaceLine]
  generalize assignRoles opened none none 0 (tokens (cellsFrom (.code false) (c :: cs))) =
    ts' at roled hwritten hproper ⊢
  rw [tokens, tokensAfter_cellsFrom [] hblank rfl] at roled
  obtain _ | ⟨hroled, hrest⟩ := roled
  rename_i t ts
  have hend : tail = [] := by
    refine Classical.byContradiction fun hne => ?_
    have hlast := htrim (tail.getLast hne) (by
      rw [show c :: cs = [] ++ (c :: cs) from rfl, hwritten, List.getLast?_append,
        List.getLast?_eq_some_getLast hne, Option.some_or])
    rw [Text.isSpace_of_isBlank (htail _ (List.getLast_mem hne))] at hlast
    cases hlast
  refine ⟨t, ts, rfl, (List.forall_mem_cons.mp hproper).2, ?_, ?_, rfl⟩
  · rw [hend, List.append_nil, List.map_cons, List.flatten_cons, Token.written,
      hroled.gap] at hwritten
    exact hwritten
  · rw [hroled.text]
    rfl

/-- Spacing leaves a line alone exactly when its tokens stand at their canonical distances. -/
theorem spaceLine_eq_iff (options : FormatOptions) (opened : List Char) {c : Char} {cs : Text}
    (ht : Text.OneLine (c :: cs)) (hc : Text.isBlank c = false) (htrim : Trimmed (c :: cs)) :
    spaceLine options opened (cellsFrom (.code false) (c :: cs)) = c :: cs ↔
      Spaced options
        (assignRoles opened none none 0 (tokens (cellsFrom (.code false) (c :: cs)))) := by
  obtain ⟨t, ts, etokens, hproper, ewritten, -, espaced⟩ :=
    spaceLine_parts options opened ht hc htrim
  rw [etokens, espaced, ewritten, Spaced, ← joinAfter_eq_iff options t hproper]
  exact List.append_right_inj t.text

theorem spaceLine_ends (options : FormatOptions) (opened : List Char) {c : Char} {cs : Text}
    (ht : Text.OneLine (c :: cs)) (hc : Text.isBlank c = false) (htrim : Trimmed (c :: cs)) :
    Trimmed (spaceLine options opened (cellsFrom (.code false) (c :: cs))) ∧
      (spaceLine options opened (cellsFrom (.code false) (c :: cs))).head? = some c := by
  obtain ⟨t, ts, -, hproper, ewritten, hhead, espaced⟩ := spaceLine_parts options opened ht hc htrim
  rw [espaced]
  refine ⟨fun x hx => htrim x ?_, ?_⟩
  · rw [ewritten, ← getLast?_joinAfter options hproper]
    exact hx
  · rw [List.head?_append, hhead]
    rfl

def standingHeight (options : FormatOptions) (s : IndentState) (line : ScriptLine) : Nat :=
  let code := Text.strip line.masked
  let width := Text.columnAfter options.indentSize (leadingBlanks line.text)
  let levels := if s.continuation then s.nesting.levels else levelsAtStatement s code width
  (Nesting.closeMany (code.takeWhile isCloser).length { s.nesting with levels }).levels.length

def isCodeLine (line : ScriptLine) : Bool :=
  !Text.isAllSpace line.text && !line.inComment && !(Text.strip line.masked).isEmpty

/-- A line of code that stands where the layout puts it. -/
structure InPlace (options : FormatOptions) (s : IndentState) (line : ScriptLine) : Prop where
  indent : s.continuation = false →
    leadingBlanks line.text =
      (List.replicate (standingHeight options s line) (indentUnit options)).flatten
  spaced : Spaced options
    (assignRoles s.nesting.opened none none 0
      (tokens (line.cells.drop (leadingBlanks line.text).length)))

theorem layCode_text_eq (options : FormatOptions) (s : IndentState) (number : Nat)
    (line : ScriptLine) :
    (layCode options s number line (Text.strip line.masked)).1.text =
      Text.trimRight Text.isSpace
        ((if s.continuation then leadingBlanks line.text
          else (List.replicate (standingHeight options s line) (indentUnit options)).flatten) ++
          spaceLine options s.nesting.opened (line.cells.drop (leadingBlanks line.text).length)) :=
            rfl

theorem inPlace_iff (options : FormatOptions) (s : IndentState) (line : ScriptLine) :
    InPlace options s line ↔
    (s.continuation = false →
      leadingBlanks line.text =
        (List.replicate (standingHeight options s line) (indentUnit options)).flatten) ∧
    Spaced options
      (assignRoles s.nesting.opened none none 0
      (tokens (line.cells.drop (leadingBlanks line.text).length))) :=
  ⟨fun h => ⟨h.indent, h.spaced⟩, fun h => ⟨h.1, h.2⟩⟩

/-- The layout leaves a line of code alone exactly when it is in place. -/
theorem layCode_eq_iff (options : FormatOptions) (s : IndentState) (number : Nat) {l : Text}
    (hl : Text.OneLine l) (htrim : Trimmed l) (hsolid : Text.isAllSpace l = false) :
    (layCode options s number (scriptLine (.ofLine false) l)
      (Text.strip (scriptLine (.ofLine false) l).masked)).1.text = l ↔
      InPlace options s (scriptLine (.ofLine false) l) := by
  have hcells : (scriptLine (.ofLine false) l).cells.drop (leadingBlanks l).length =
      cellsFrom (.code false) (l.dropWhile Text.isBlank) := cells_behind_blanks l
  have hlead := blank_of_leadingBlanks l
  have hlevel := blank_of_indent options (standingHeight options s (scriptLine (.ofLine false) l))
  have hparts := leadingBlanks_append l
  have hhead := head_dropWhile_blank l
  have hone := oneLine_dropWhile hl Text.isBlank
  rw [inPlace_iff, layCode_text_eq, scriptLine_text, hcells]
  generalize (List.replicate (standingHeight options s (scriptLine (.ofLine false) l))
    (indentUnit options)).flatten = level
    at hlevel ⊢
  generalize leadingBlanks l = lead at hlead hparts ⊢
  generalize l.dropWhile Text.isBlank = rest at hparts hhead hone ⊢
  subst hparts
  cases rest with
  | nil =>
    rw [List.append_nil, Text.isAllSpace,
      List.all_eq_true.mpr (Text.white_of_blanks hlead)] at hsolid
    cases hsolid
  | cons c cs =>
    have hc : Text.isBlank c = false := hhead
    have hend := htrim.of_append
    obtain ⟨hspacedEnd, hspacedHead⟩ := spaceLine_ends options s.nesting.opened hone hc hend
    rw [← spaceLine_eq_iff options s.nesting.opened hone hc hend]
    generalize spaceLine options s.nesting.opened (cellsFrom (.code false) (c :: cs)) =
      spaced at hspacedEnd hspacedHead ⊢
    have hne : spaced ≠ [] := by
      rintro rfl
      cases hspacedHead
    have hspaced : spaced.head?.any Text.isBlank = false := by
      rw [hspacedHead]
      exact hc
    rw [(hspacedEnd.append hne).trimRight]
    constructor
    · intro e
      have hindent : ∀ x ∈ (if s.continuation then lead else level), Text.isBlank x = true :=
        forall_mem_ite hlead hlevel
      obtain ⟨e₁, e₂⟩ := Text.run_append_inj hindent hlead hspaced hhead e
      refine ⟨fun hcont => ?_, e₂⟩
      rw [hcont] at e₁
      exact e₁.symm
    · rintro ⟨hindent, rfl⟩
      cases hcont : s.continuation with
      | true => rfl
      | false => rw [hindent hcont]; rfl

/-- The layout leaves a trimmed line alone unless it is a line of code out of place. -/
theorem layLine_eq_iff (options : FormatOptions) (s : IndentState) (number : Nat)
    (inComment : Bool) {l : Text} (hl : Text.OneLine l) (htrim : Trimmed l) :
    (layLine options s number (scriptLine (.ofLine inComment) l)).1.text = l ↔
      (isCodeLine (scriptLine (.ofLine inComment) l) = true →
        InPlace options s (scriptLine (.ofLine inComment) l)) := by
  rw [layLine, isCodeLine]
  simp only [scriptLine_text, scriptLine_inComment, Mode.inBlock_ofLine]
  cases hwhite : Text.isAllSpace l with
  | true => exact iff_of_true (htrim.eq_nil hwhite).symm fun h => by simp at h
  | false =>
    cases inComment with
    | true => exact iff_of_true htrim.trimRight fun h => by simp at h
    | false =>
      cases hcode : (Text.strip (scriptLine (.ofLine false) l).masked).isEmpty with
      | true => exact iff_of_true htrim.trimRight fun h => by simp at h
      | false =>
        simp only [Bool.false_eq_true, if_false, Bool.not_false, Bool.and_self, true_implies]
        exact layCode_eq_iff options s number hl htrim hwhite

/-- All lines of code stand where the layout puts them, from the given state on. -/
def AllInPlace (options : FormatOptions) (s : IndentState) (number : Nat) : List ScriptLine → Prop
  | [] => True
  | line :: rest =>
    (isCodeLine line = true → InPlace options s line) ∧
      AllInPlace options (layLine options s number line).2 (number + 1) rest

/-- The layout leaves trimmed lines alone exactly when all lines of code are in place. -/
theorem laidLines_eq_iff (options : FormatOptions) {ls : List Text} (h : ∀ l ∈ ls, Text.OneLine l ∧
    Trimmed l) :
    laidLines options ls = ls ↔ AllInPlace options .start 1 (readLines .start ls) := by
  rw [laidLines, show Mode.start = .ofLine false from rfl]
  generalize IndentState.start = s
  generalize 1 = number
  generalize false = inComment
  induction ls generalizing s number inComment with
  | nil => exact iff_of_true rfl trivial
  | cons l ls ih =>
    obtain ⟨hl, hls⟩ := List.forall_mem_cons.mp h
    rw [readLines_cons, layLines, List.map_cons, List.cons.injEq, AllInPlace,
      layLine_eq_iff options s number inComment hl.1 hl.2, entry_of_substance]
    exact and_congr_right fun _ => ih hls _ _ _

end PineTools.Layout
