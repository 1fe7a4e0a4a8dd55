import Mathlib.Data.List.Forall2
import PineTools.Proofs.Convert.Newest
import PineTools.Proofs.Convert.Returned

/-! A script of the middle version that is converted to the newest and back is accepted again
exactly if a single line declares it once the marks of methods are gone. The lines of the mask are
compared one by one, but for those that say nothing about acceptance: the marker and imports, which
the two steps write and drop. -/
namespace PineTools.Convert

open Mode

section Passing

/-- The line of code says nothing about acceptance: no character of it is a bracket, begins a
comment or a literal, or stands in every export or in every arrow. -/
def idle (code : Text) : Bool := code.all fun c => decide (Tame c) && !isBracket c &&
    c != 'e' && c != '='

variable {code : Text}

theorem idle_iff :
    idle code = true ↔ ∀ c ∈ code, Tame c ∧ isBracket c = false ∧ c ≠ 'e' ∧ c ≠ '=' := by
  rw [idle, List.all_eq_true]
  refine forall₂_congr fun c _ => ?_
  rw [Bool.and_eq_true, Bool.and_eq_true, Bool.and_eq_true, decide_eq_true_iff, Bool.not_eq_true',
    bne_iff_ne, bne_iff_ne, and_assoc, and_assoc]

theorem idle_of_white (h : ∀ c ∈ code, Text.isSpace c = true) : idle code = true :=
  idle_iff.mpr fun c hc =>
    ⟨tame_of_white (h c hc), isBracket_white (h c hc), ne_of_white (h c hc) (by decide),
      ne_of_white (h c hc) (by decide)⟩

/-- The mask of such a line says nothing either. -/
theorem idle_masked {line : ScriptLine} (h : idle line.text = true) : idle line.masked = true := by
  refine idle_iff.mpr fun c hc => ?_
  obtain ⟨cell, hcell, rfl⟩ := List.mem_map.mp hc
  rcases cell.masked_cases with e | e | e
  · exact e ▸ idle_iff.mp h cell.char (List.mem_map_of_mem hcell)
  · exact e ▸ by decide
  · exact e ▸ by decide

/-- What lines of code and an open comment behind them have to be for acceptance, with the lines
that declare the script given. -/
structure Passes (declare : Text → Bool) (codes : List Text) (inComment : Bool) : Prop where
  balanced : balance codes inComment = 0
  declared : codes.countP declare = 1
  exports : ∀ code ∈ codes, exportHead.readAt? code = none

theorem accepted_iff_passes (t : Text) :
    Accepted .v5 t ↔ Passes declares (Text.lines (mask t)) (leavesAll false (Text.lines t)) := by
  constructor
  · intro h
    exact ⟨(structuralImbalance_lines t).symm.trans h.balanced, h.declared, h.exports (by decide)⟩
  · intro h
    exact ⟨(structuralImbalance_lines t).trans h.balanced, h.declared, fun _ => h.exports, fun e =>
      absurd e (by decide), fun e => absurd e (by decide)⟩

variable {codes codes' : List Text} {inComment : Bool} {declare : Text → Bool}

theorem exports_of_idle (h : idle code = true) : exportHead.readAt? code = none :=
  Option.eq_none_iff_forall_ne_some.mpr fun v hv => by
    obtain ⟨rest, hv⟩ := readAt?_eq_some hv
    exact (idle_iff.mp h 'e' ((List.map_id code).subst (demands_exportHead (by decide) hv))).2.2.1
      rfl

theorem unmarked_of_idle (h : idle code = true) : unmarked code = code :=
  unmarked_of_none fun d hd => by
    obtain ⟨rest, hd⟩ := readAt?_eq_some hd
    exact absurd rfl
      (idle_iff.mp h '=' ((List.map_id code).subst (demands_functionDefinition hd))).2.2.2

theorem declares_of_idle (h : idle code = true) : declares code = false :=
  Option.isSome_eq_false_iff.mpr
    (Option.isNone_iff_eq_none.mpr (Option.eq_none_iff_forall_ne_some.mpr fun call hcall => by
    obtain ⟨rest, hcall⟩ := readAt?_eq_some hcall
    exact absurd (idle_iff.mp h '(' ((List.map_id code).subst (demands_declaration hcall))).2.1
      (by decide)))

/-- Lines that say nothing about acceptance may be left out. -/
theorem passes_filter (hdeclare : ∀ code, idle code = true → declare code = false) :
    Passes declare (codes.filter fun code => !idle code) inComment ↔
      Passes declare codes inComment := by
  have hbrackets : (codes.filter fun code => !idle code).flatMap brackets =
      codes.flatMap brackets := by
    induction codes with
    | nil => rfl
    | cons code codes ih =>
      rw [List.filter_cons, List.flatMap_cons, ← ih]
      cases hidle : idle code with
      | true => rw [brackets_of_none fun c hc => (idle_iff.mp hidle c hc).2.1]; rfl
      | false => rfl
  have hcount {p : Text → Bool} (hp : ∀ code, idle code = true → p code = false) :
      (codes.filter fun code => !idle code).countP p = codes.countP p := by
    rw [List.countP_filter]
    refine List.countP_congr fun code _ => ?_
    cases hidle : idle code with
    | true => simp [hp code hidle]
    | false => simp
  have hbalance : balance (codes.filter fun code => !idle code) inComment =
      balance codes inComment := by
    rw [balance, balance, hbrackets, hcount fun code hidle => staysOpen_tame fun c hc =>
      (idle_iff.mp hidle c hc).1]
  constructor
  · intro h
    refine ⟨hbalance.symm.trans h.balanced, (hcount hdeclare).symm.trans h.declared,
      fun code hcode => ?_⟩
    cases hidle : idle code with
    | true => exact exports_of_idle hidle
    | false => exact h.exports code (List.mem_filter.mpr ⟨hcode, by rw [hidle]; rfl⟩)
  · intro h
    exact ⟨hbalance.trans h.balanced, (hcount hdeclare).trans h.declared, fun code hcode =>
      h.exports code (List.mem_of_mem_filter hcode)⟩

/-- Lines that came back are accepted if they declare the script once without the marks of methods.
-/
theorem passes_returned (h : List.Forall₂ Returned codes codes') :
    Passes declares codes' inComment ↔
      Passes (fun code => declares (unmarked code)) codes inComment := by
  have hsame : codes'.flatMap brackets = codes.flatMap brackets ∧ codes'.countP staysOpen =
    codes.countP staysOpen ∧
      codes'.countP declares = codes.countP (fun code => declares (unmarked code)) ∧
      ((∀ code ∈ codes', exportHead.readAt? code = none) ↔
        ∀ code ∈ codes, exportHead.readAt? code = none) := by
    induction h with
    | nil => exact ⟨rfl, rfl, rfl, Iff.rfl⟩
    | @cons code code' codes codes' hcode _ ih =>
      obtain ⟨hbrackets, hopen, hdeclares, hexports⟩ := ih
      rw [List.flatMap_cons, List.flatMap_cons, List.countP_cons, List.countP_cons,
        List.countP_cons, List.countP_cons, List.forall_mem_cons, List.forall_mem_cons,
        hcode.brackets_eq, hcode.staysOpen_eq, hcode.declares_eq, hcode.exports_iff, hbrackets,
        hopen, hdeclares, hexports]
      exact ⟨rfl, rfl, rfl, Iff.rfl⟩
  obtain ⟨hbrackets, hopen, hdeclares, hexports⟩ := hsame
  have hbalance : balance codes' inComment = balance codes inComment := by
    rw [balance, balance, hbrackets, hopen]
  constructor
  · intro h
    exact ⟨hbalance.symm.trans h.balanced, hdeclares.symm.trans h.declared, hexports.mp h.exports⟩
  · intro h
    exact ⟨hbalance.trans h.balanced, hdeclares.trans h.declared, hexports.mpr h.exports⟩

end Passing

section Lines

variable {a b before after : List Text} {l s t : Text}

def busy (ls : List Text) : List Text := (rewriteLines ScriptLine.masked false ls).filter
    fun code => !idle code

theorem accepted_iff_busy (t : Text) :
    Accepted .v5 t ↔ Passes declares (busy (Text.lines t)) (leavesAll false (Text.lines t)) := by
  rw [accepted_iff_passes, lines_mask_readLines, busy, passes_filter fun code => declares_of_idle]
  rfl

/-- A line that says nothing about acceptance may be put anywhere. -/
theorem busy_insert (hidle : idle (readLine (leavesAll false a) l).masked = true)
    (hleaves : (readLine (leavesAll false a) l).leaves l = leavesAll false a) (b : List Text) :
    busy (a ++ l :: b) = busy (a ++ b) ∧ leavesAll false (a ++ l :: b) =
      leavesAll false (a ++ b) := by
  constructor
  · rw [busy, busy, rewriteLines_append, rewriteLines_append, rewriteLines_cons, hleaves,
      List.filter_append, List.filter_append, List.filter_cons, hidle]
    rfl
  · rw [leavesAll_append, leavesAll_append, leavesAll_cons, hleaves]

theorem busy_marker (v : ScriptVersion) (a b : List Text) :
    busy (a ++ v.marker :: b) = busy (a ++ b) ∧ leavesAll false (a ++ v.marker :: b) =
      leavesAll false (a ++ b) := by
  refine busy_insert ?_ (readLine_marker v _).2 b
  cases leavesAll false a <;> cases v <;> decide +kernel

theorem import_kept (inComment : Bool) :
    backwardLine (readLine inComment RenameTables.shipped.defaultImport) =
      RenameTables.shipped.defaultImport ∧
      (readLine inComment RenameTables.shipped.defaultImport).leaves
        RenameTables.shipped.defaultImport = inComment ∧
      idle (readLine inComment RenameTables.shipped.defaultImport).masked = true := by
  cases inComment <;> decide +kernel

theorem busy_dropImport (hmarked : ∃ v : ScriptVersion, v.marker ∈ Text.lines t) :
    busy (Text.lines (dropImport .shipped t)) = busy (Text.lines t) ∧
      leavesAll false (Text.lines (dropImport .shipped t)) = leavesAll false (Text.lines t) := by
  rcases dropImport_cases tameImport_shipped t with e | ⟨a, l, b, hlines, e, hclosed, himported⟩
  · rw [e]
    exact ⟨rfl, rfl⟩
  · have htame := tameImport_shipped.tame_line himported
    have hne : a ++ b ≠ [] := fun hnil => by
      obtain ⟨v, hv⟩ := hmarked
      obtain ⟨rfl, rfl⟩ := List.append_eq_nil_iff.mp hnil
      rw [hlines] at hv
      obtain rfl := List.mem_singleton.mp hv
      exact (htame '/' (by cases v <;> decide)).1 rfl
    have hone : ∀ l' ∈ a ++ b, Text.OneLine l' := fun l' hl' => Text.oneLine_of_mem_lines (t := t)
      (hlines ▸ (List.Sublist.append_left (List.sublist_cons_self l b) a).mem hl')
    have hidle : idle (readLine (leavesAll false a) l).masked = true :=
      idle_masked (idle_iff.mpr fun c hc => by
      rw [ScriptLine.readLine_text] at hc
      rcases himported c hc with hwhite | hmem
      · exact idle_iff.mp (idle_of_white
        (List.forall_mem_singleton.mpr hwhite)) c List.mem_cons_self
      · have himport : ∀ c ∈ RenameTables.shipped.defaultImport, Tame c ∧ isBracket c = false ∧
      c ≠ 'e' ∧ c ≠ '=' := by decide
        exact himport c hmem)
    have hleaves : (readLine (leavesAll false a) l).leaves l = leavesAll false a := by
      rw [hclosed]
      exact leaves_tame htame
    obtain ⟨hbusy, hopen⟩ := busy_insert hidle hleaves b
    rw [e, Text.lines_unlines hne hone, hlines]
    exact ⟨hbusy.symm, hopen.symm⟩

/-- Both steps between the newest versions, one line at a time. -/
def thereAndBack (t : Text) (line : ScriptLine) : Text :=
  backwardLine (reread (forwardLine (isReassigned (marked t))) line)

theorem keeps_thereAndBack (t : Text) :
    KeepsReading (thereAndBack t) := (keeps_forwardLine _).comp keeps_backwardLine

theorem Surroundings.lines_back (h : Surroundings t before after) :
    ∃ added, (added = [] ∨ added = [RenameTables.shipped.defaultImport]) ∧
      Text.lines (dropMethod
        (replaceKeyword "let" "var" (setMarker .v5 (Step.v5ToV6.apply .shipped t)))) =
        rewriteLines (thereAndBack t) false before ++
          ScriptVersion.v5.marker ::
            (added ++ rewriteLines (thereAndBack t) (leavesAll false before) after) := by
  obtain ⟨hone, hone'⟩ := oneLine_of_lines (h.lines .v6)
  have hforward := keeps_forwardLine (isReassigned (marked t))
  have hmarkers := keepsMarkers_forwardLine (isReassigned (marked t))
  have hleaves :
      leavesAll false (rewriteLines (forwardLine (isReassigned (marked t))) false before) =
      leavesAll false before :=
    hforward.leavesAll_rewriteLines hone
  obtain ⟨added, hadded, hlines⟩ :
    ∃ added, (added = [] ∨ added = [RenameTables.shipped.defaultImport]) ∧
      Text.lines (Step.v5ToV6.apply .shipped t) =
        rewriteLines (forwardLine (isReassigned (marked t))) false before ++
        ScriptVersion.v6.marker ::
          (added ++ rewriteLines (forwardLine (isReassigned (marked t)))
          (leavesAll false before) after) := by
    rw [apply_v5ToV6]
    rcases lines_addImport .shipped h.lines_rewritten (hmarkers.not_marker_lines hone h.noMarker)
      (isMarkerLine_marker .v6) with e | e
    · rw [e]
      exact ⟨[], .inl rfl, h.lines_rewritten⟩
    · rw [e, Text.lines_of_oneLine plainImport_shipped.oneLine]
      exact ⟨_, .inr rfl, rfl⟩
  refine ⟨added, hadded, ?_⟩
  have hback : rewriteLines backwardLine (leavesAll false before)
      (added ++ rewriteLines (forwardLine (isReassigned (marked t)))
        (leavesAll false before) after) =
        added ++ rewriteLines (thereAndBack t) (leavesAll false before) after := by
    obtain ⟨hkept, hopen, -⟩ := import_kept (leavesAll false before)
    rcases hadded with rfl | rfl
    · exact hforward.rewriteLines_rewriteLines _ hone'
    · rw [List.singleton_append, rewriteLines_cons, hkept, hopen,
        hforward.rewriteLines_rewriteLines _ hone']
      rfl
  rw [lines_backward, lines_setMarker_at hlines (hmarkers.not_marker_lines hone h.noMarker)
    (isMarkerLine_marker .v6), keepsMarkers_backwardLine.rewriteLines_marker, hleaves, hback,
    hforward.rewriteLines_rewriteLines _ hone]
  rfl

end Lines

section Acceptance

variable {before after : List Text} {t : Text}

/-- A script that the middle version accepts if its definitions lose the marks of methods: its
structure is sound, one line declares it then, and no export declares a variable. -/
structure AcceptedBare (t : Text) : Prop where
  balanced : structuralImbalance t = 0
  declared : (Text.lines (mask t)).countP (fun code => declares (unmarked code)) = 1
  exports : ∀ code ∈ Text.lines (mask t), exportHead.readAt? code = none

theorem acceptedBare_iff_busy (t : Text) :
    AcceptedBare t ↔ Passes (fun code => declares (unmarked code)) (busy (Text.lines t))
    (leavesAll false (Text.lines t)) := by
  have hidle : ∀ code, idle code = true → declares (unmarked code) = false := fun code hidle => by
    rw [unmarked_of_idle hidle, declares_of_idle hidle]
  have hmask : Text.lines (mask t) = rewriteLines ScriptLine.masked false (Text.lines t) :=
    lines_mask_readLines t
  rw [busy, passes_filter hidle, ← hmask]
  constructor
  · intro h
    exact ⟨(structuralImbalance_lines t).symm.trans h.balanced, h.declared, h.exports⟩
  · intro h
    exact ⟨(structuralImbalance_lines t).trans h.balanced, h.declared, h.exports⟩

theorem Surroundings.busy_lines (h : Surroundings t before after) (v : ScriptVersion) :
    busy (Text.lines (setMarker v t)) = busy (before ++ after) ∧
      leavesAll false (Text.lines (setMarker v t)) = leavesAll false (before ++ after) := by
  rw [h.lines]
  exact busy_marker v before after

/-- After both steps the script is accepted if it is without the marks of methods. -/
theorem accepted_back_iff (t : Text) :
    Accepted .v5 (Step.v6ToV5.apply .shipped (Step.v5ToV6.apply .shipped t)) ↔
      AcceptedBare (setMarker .v5 t) := by
  obtain ⟨before, after, h⟩ := exists_surroundings t
  obtain ⟨added, hadded, hlines⟩ := h.lines_back
  have hone : ∀ l ∈ before ++ after, Text.OneLine l := by
    obtain ⟨hbefore, hafter⟩ := oneLine_of_lines (h.lines .v5)
    exact List.forall_mem_append.mpr ⟨hbefore, hafter⟩
  have hkeeps := keeps_thereAndBack t
  rw [apply_v6ToV5, accepted_iff_busy, acceptedBare_iff_busy, (h.busy_lines .v5).1,
    (h.busy_lines .v5).2]
  generalize dropMethod
    (replaceKeyword "let" "var" (setMarker .v5 (Step.v5ToV6.apply .shipped t))) = u at hlines
  have hmarked : ∃ v : ScriptVersion, v.marker ∈ Text.lines u :=
    ⟨.v5, hlines ▸ List.mem_append_right _ List.mem_cons_self⟩
  -- The marker and an added import do not matter.
  have hcore : busy (Text.lines u) = busy (rewriteLines (thereAndBack t) false (before ++ after)) ∧
      leavesAll false (Text.lines u) = leavesAll false (before ++ after) := by
    have hfront : leavesAll false (rewriteLines (thereAndBack t) false before) =
        leavesAll false before :=
      hkeeps.leavesAll_rewriteLines fun l hl => hone l (List.mem_append_left _ hl)
    have hall : leavesAll false (rewriteLines (thereAndBack t) false (before ++ after)) =
        leavesAll false (before ++ after) :=
      hkeeps.leavesAll_rewriteLines hone
    rw [hlines, (busy_marker .v5 _ _).1, (busy_marker .v5 _ _).2, ← hall, rewriteLines_append]
    rcases hadded with rfl | rfl
    · exact ⟨rfl, rfl⟩
    · obtain ⟨-, hopen, hidle⟩ :=
        import_kept (leavesAll false (rewriteLines (thereAndBack t) false before))
      exact busy_insert hidle hopen _
  rw [(busy_dropImport hmarked).1, (busy_dropImport hmarked).2, hcore.1, hcore.2, busy, busy,
    passes_filter fun code => declares_of_idle, passes_filter fun code hidle => by
      rw [unmarked_of_idle hidle, declares_of_idle hidle],
    hkeeps.rewriteLines_rewriteLines ScriptLine.masked hone]
  refine passes_returned ?_
  rw [rewriteLines, rewriteLines, List.forall₂_map_left_iff, List.forall₂_map_right_iff,
    List.forall₂_same]
  exact fun line hline => returned _ (isRead_of_mem_readLines hone hline).1

/-- Where the marker stands outside comments, it is no matter which version it states. -/
theorem busy_setMarker (hclear : MarkerClear t) (v : ScriptVersion) :
    busy (Text.lines (setMarker v t)) = busy (Text.lines t) ∧
      leavesAll false (Text.lines (setMarker v t)) = leavesAll false (Text.lines t) := by
  obtain ⟨before, after, h⟩ := exists_surroundings t
  have hclosed := h.closed hclear
  rw [(h.busy_lines v).1, (h.busy_lines v).2, h.source]
  cases hfind : markerLine? t with
  | none => exact ⟨rfl, rfl⟩
  | some line =>
    obtain ⟨-, -, -, -, hl, -⟩ := around_marker hfind
    have hone : Text.OneLine line.text := by
      have hsource := h.source
      rw [hfind] at hsource
      exact Text.oneLine_of_mem_lines (hsource ▸ List.mem_append_right before List.mem_cons_self)
    obtain ⟨b, u, hb, hu, htext⟩ := exists_comment_of_marker hl hone
    have hidle : idle (readLine (leavesAll false before) line.text).masked = true := by
      rw [hclosed, htext]
      exact idle_of_white (Layout.masked_comment_line (Text.white_of_blanks hb) hu)
    have hleaves : (readLine (leavesAll false before) line.text).leaves line.text =
        leavesAll false before := by
      rw [hclosed, htext]
      exact leaves_comment_line hb hu
    obtain ⟨hbusy, hopen⟩ := busy_insert hidle hleaves after
    exact ⟨hbusy.symm, hopen.symm⟩

/-- A line that declares the script marks no method. -/
theorem unmarked_of_declares {code : Text} (h : declares code = true) : unmarked code = code := by
  obtain ⟨call, hcall⟩ := Option.isSome_iff_exists.mp h
  refine unmarked_of_firstWord ?_
  rw [firstWord_of_declaration hcall]
  cases call <;> decide

/-- An accepted script whose marker stands outside comments is accepted without the marks of methods
exactly if none of them hides a declaration. -/
theorem acceptedBare_iff_of_accepted (hclear : MarkerClear t) (h : Accepted .v5 t) :
    AcceptedBare (setMarker .v5 t) ↔ ∀ code ∈ Text.lines (mask t), declares (unmarked code) = true →
    declares code = true := by
  have hsame : AcceptedBare (setMarker .v5 t) ↔ AcceptedBare t := by
    rw [acceptedBare_iff_busy, acceptedBare_iff_busy, (busy_setMarker hclear .v5).1,
      (busy_setMarker hclear .v5).2]
  have hcount : (Text.lines (mask t)).countP (fun code => declares (unmarked code)) =
      1 + (Text.lines (mask t)).countP fun code => declares (unmarked code) && !declares code := by
    rw [← h.declared, List.countP_eq_countP_filter_add _ _ declares, List.countP_filter,
      List.countP_filter]
    congr 1
    refine List.countP_congr fun code _ => ?_
    cases hdeclares : declares code with
    | true => rw [unmarked_of_declares hdeclares, hdeclares]; rfl
    | false => rw [Bool.and_false]
  have hzero :
    ((Text.lines (mask t)).countP fun code => declares (unmarked code) && !declares code) = 0 ↔
      ∀ code ∈ Text.lines (mask t), declares (unmarked code) = true → declares code = true := by
    rw [List.countP_eq_zero]
    refine forall₂_congr fun code _ => ?_
    cases declares (unmarked code) <;> cases declares code <;> decide
  rw [hsame, ← hzero]
  constructor
  · intro hbare
    exact Nat.add_left_cancel (hcount.symm.trans hbare.declared)
  · intro hnone
    exact ⟨h.balanced, hcount.trans (by rw [hnone]), h.exports (by decide)⟩

end Acceptance

section RoundTrip

variable {τ κ : Type} [Timeline τ] [Clock κ τ] {settings : ValidationSettings τ}
    {fallback : ScriptVersion} {budget : Option τ}
  {clock : κ} {s : Text} {newest middle : Json} {r : ValidationResult}

/-- A script of the middle version that is valid is converted to the newest version and back. The
result states the middle version. It is valid exactly if the script is accepted once its marker is
written anew and the marks of its methods are gone; where the marker stands outside comments, that
is if no method hides a declaration of the script behind its mark. -/
theorem convert_there_and_back_valid_iff (hnone : settings.ignoredRules = [])
    (hwarnings : settings.warningsAsErrors = false) (hnewest : ScriptVersion.parse newest = .ok .v6)
    (hmiddle : ScriptVersion.parse middle = .ok .v5) (hv : detectVersion s fallback = .ok .v5)
    (hr : (validate settings fallback none budget clock s).outcome = .ok r)
    (hvalid : r.valid = true) :
    ∃ t z, convert fallback .shipped s newest = .ok t ∧ convert fallback .shipped t middle = .ok z ∧
      (∀ other, detectVersion z other = .ok .v5) ∧
      (∀ (other : ScriptVersion) (budget : Option τ) (clock : κ),
        ((∃ result, (validate settings other none budget clock z).outcome = .ok result) ∨
          ∃ e, (validate settings other none budget clock z).outcome = .error (.timeout e)) ∧
        ∀ result, (validate settings other none budget clock z).outcome = .ok result →
          (result.valid = true ↔ AcceptedBare (setMarker .v5 s))) ∧
      (MarkerClear s → (AcceptedBare (setMarker .v5 s) ↔
        ∀ code ∈ Text.lines (mask s), declares (unmarked code) = true → declares code = true)) := by
  have hforth : Marked .v6 (Step.v5ToV6.apply .shipped s) :=
    marked_apply namesOnly_shipped s .v5ToV6
  have hback : Marked .v5 (Step.v6ToV5.apply .shipped (Step.v5ToV6.apply .shipped s)) :=
    marked_apply namesOnly_shipped _ .v6ToV5
  have haccepted := accepted_back_iff s
  have hway (f : Text → Step → Text) (t : Text) : (path .v5 .v6).foldl f t = f t .v5ToV6 := rfl
  have hway' (f : Text → Step → Text) (t : Text) : (path .v6 .v5).foldl f t = f t .v6ToV5 := rfl
  have hconvert : convert fallback .shipped s newest = _ := convert_eq hv hnewest
  have hconvert' : convert fallback .shipped (Step.v5ToV6.apply .shipped s) middle = _ :=
    convert_eq (hforth.detectVersion fallback) hmiddle
  rw [hway] at hconvert
  rw [hway'] at hconvert'
  refine ⟨_, _, hconvert, hconvert', hback.detectVersion, fun other budget clock =>
    ⟨?_, fun result hresult => ?_⟩, fun hclear => ?_⟩
  · exact validate_returns_or_late (hback.detectVersion other)
  · rw [validate_valid_iff hnone hwarnings hresult, ← haccepted, hback.detectVersion other]
    constructor
    · rintro ⟨v, hsame, h⟩
      exact Except.ok.inj hsame ▸ h
    · exact fun h => ⟨_, rfl, h⟩
  · obtain ⟨v, hsame, h⟩ := (validate_valid_iff hnone hwarnings hr).mp hvalid
    exact acceptedBare_iff_of_accepted hclear (Except.ok.inj (hsame.symm.trans hv) ▸ h)

/-- A validation with standard settings returns, and finds the script valid or not. -/
def Validates (s : Text) (valid : Bool) : Prop :=
  ∃ result, (validate (κ := SteadyClock) .standard .v5 none none ⟨0.0, 0.5⟩ s).outcome =
    .ok result ∧ result.valid = valid

theorem validates {s : Text} {valid : Bool}
    (h : (validate (κ := SteadyClock) .standard .v5 none none ⟨0.0, 0.5⟩ s).outcome.toOption.any
      (·.valid == valid) = true) :
    Validates s valid := by
  rw [Validates]
  cases hresult : (validate (κ := SteadyClock) .standard .v5 none none ⟨0.0, 0.5⟩ s).outcome with
  | error e =>
    rw [hresult] at h
    cases h
  | ok result =>
    rw [hresult] at h
    exact ⟨result, rfl, beq_iff_eq.mp h⟩

/-- A script with a method, which is no declaration without its mark. -/
theorem convert_there_and_back_valid_iff_method :
    let s := "//@version=5\nstudy(1)\nmethod f(x) => x".toList
    let t := "//@version=6\nimport ta\nstudy(1)\nmethod f(x) => x".toList
    let z := "//@version=5\nstudy(1)\nf(x) => x".toList
    convert .v5 .shipped s (.int 6) = .ok t ∧ convert .v5 .shipped t (.int 5) = .ok z ∧
      Validates s true ∧ Validates z true := by
  intro s t z
  have hforth : convert .v5 .shipped s (.int 6) = .ok t := by decide +kernel
  have hback : convert .v5 .shipped t (.int 5) = .ok z := by decide +kernel
  have hvalid : Validates s true := validates (by decide +kernel)
  have hreturns :
      (validate (κ := SteadyClock) .standard .v5 none none ⟨0.0, 0.5⟩ z).outcome.isOk = true := by
      decide +kernel
  have hvalid' := hvalid
  obtain ⟨r, hr, hrvalid⟩ := hvalid'
  obtain ⟨t', z', hforth', hback', -, hresult, hbare⟩ :=
    @convert_there_and_back_valid_iff Float SteadyClock _ _ .standard .v5 none
    ⟨0.0, 0.5⟩ s (.int 6) (.int 5) r rfl rfl (by decide +kernel) (by decide +kernel)
      (by decide +kernel) hr hrvalid
  obtain rfl : t = t' := Except.ok.inj (hforth.symm.trans hforth')
  obtain rfl : z = z' := Except.ok.inj (hback.symm.trans hback')
  refine ⟨hforth, hback, hvalid, ?_⟩
  cases hz : (validate (κ := SteadyClock) .standard .v5 none none ⟨0.0, 0.5⟩ z).outcome with
  | error e =>
    rw [hz] at hreturns
    cases hreturns
  | ok result =>
    refine ⟨result, hz, ((hresult .v5 none ⟨0.0, 0.5⟩).2 result hz).mpr
      ((hbare (by decide +kernel)).mpr ?_)⟩
    decide +kernel

/-- A method that is called like a declaration declares the script once more when its mark is gone.
-/
theorem convert_there_and_back_invalid :
    let s := "//@version=5\nstudy(1)\nmethod study(x) => x".toList
    let t := "//@version=6\nimport ta\nstudy(1)\nmethod study(x) => x".toList
    let z := "//@version=5\nstudy(1)\nstudy(x) => x".toList
    detectVersion s .v5 = .ok .v5 ∧ Validates s true ∧ convert .v5 .shipped s (.int 6) = .ok t ∧
      convert .v5 .shipped t (.int 5) = .ok z ∧ Validates z false := by
  refine ⟨?_, validates ?_, ?_, ?_, validates ?_⟩ <;> decide +kernel

end RoundTrip

end PineTools.Convert
