import PineTools.Proofs.Construct.Masked
import PineTools.Proofs.Convert.Restoring

/-! What the step to the newest version makes of the masked lines of a script, and how its
constructs are read there. A line keeps its leading word up to a keyword, or gets the mark of
methods in front, so everything behind the first words is found again. -/
namespace PineTools.Convert

open Reader

def asVar (code : Text) : Text :=
  match (leadingKeyword "varip" none : Reader Char (LeadingKeyword Char)) code with
  | some (k, rest) => k.indent ++ ("var".toList ++ rest)
  | none => code

/-- What becomes of a line of code: a declaration that is frozen, a line in which at most a leading
`varip` is replaced, or a definition that is marked as a method. -/
inductive Forwarded (reassigned : Text → Bool) (code : Text) : Text → Prop
  | frozen {d : VariableDeclaration Char} {indent gap b : Text} {x y : Char}
  (hread : variableDeclaration.readAt? code = some d)
      (hname : reassigned d.name = false)
      (e : code = indent ++ ("var".toList ++ (y :: gap ++ x :: b)))
      (hindent : ∀ c ∈ indent, Text.isBlank c = true) (hgap : ∀ c ∈ y :: gap, Text.isBlank c = true)
      (hx : Text.isWord x = true) :
      Forwarded reassigned code (indent ++ ("let".toList ++ (y :: gap ++ x :: b)))
  | kept (hvariable : ∀ d, variableDeclaration.readAt? code = some d → reassigned d.name = true)
      (hdefinition : ∀ d, functionDefinition.readAt? (asVar code) = some d → d.method ≠ none) :
      Forwarded reassigned code (asVar code)
  | marked {d : FunctionDefinition Char} {indent b : Text} {x : Char}
  (hread : functionDefinition.readAt? (asVar code) = some d)
      (hmethod : d.method = none) (e : asVar code = indent ++ x :: b)
      (hindent : ∀ c ∈ indent, Text.isBlank c = true) (hx : Text.isWord x = true) :
      Forwarded reassigned code (indent ++ ("method ".toList ++ x :: b))

section Lines

variable {line : ScriptLine}

theorem reread_inComment (g : ScriptLine → Text) (line : ScriptLine) :
    (reread g line).inComment = line.inComment :=
  ScriptLine.readLine_inComment line.inComment (g line)

theorem writtenText_assigned (hline : line.IsRead) {a gs name rest : List Cell}
    (hcells : line.cells = a ++ gs) (h : assignedName gs = some (name, rest)) : writtenText name =
      seenText name := by
  obtain ⟨name', rest₁, hname, h⟩ := bind_eq_some.mp h
  obtain ⟨gap, rest₂, hgap, h⟩ := discard_bind_eq_some.mp h
  obtain ⟨sign, rest₃, hsign, h⟩ := discard_bind_eq_some.mp h
  cases pure_eq_some.mp h
  obtain ⟨rfl, -, hword⟩ := name_eq_some hname
  obtain ⟨rfl, isGap⟩ := blanks_eq_some hgap
  obtain ⟨rfl, hequals⟩ := assign_eq_some hsign
  obtain ⟨y, b, hy, hn, hlit⟩ : ∃ y b, gap ++ sign :: rest = y :: b ∧ y.char ≠ '\n' ∧
      y.region.isLiteral = false := by
    have hread := hline.cells_eq.symm.trans hcells
    have hmem {y : Cell} (hy : y ∈ gap ++ sign :: rest) :
        y ∈ cellsFrom (.ofLine line.inComment) line.text := by
      rw [hread]
      exact List.mem_append_right _ (List.mem_append_right _ hy)
    cases gap with
    | nil =>
      have hmasked : sign.masked = '=' := hequals
      obtain ⟨hcode, hchar⟩ := code_of_masked (hmem List.mem_cons_self) (by rw [hmasked]; decide)
        (by rw [hmasked]; decide)
        (by rw [hmasked]; decide) (by rw [hmasked]; exact fun q => by cases q <;> decide)
      exact ⟨sign, rest, rfl, by rw [hchar, hmasked]; decide, by rw [hcode]; rfl⟩
    | cons y gap =>
      obtain ⟨hn, hlit⟩ := region_of_blank (hmem List.mem_cons_self) (isGap y List.mem_cons_self)
      exact ⟨y, gap ++ sign :: rest, rfl, hn, hlit⟩
  rw [hy] at hcells
  have hcode :=
    code_of_name (hline.cells_eq.symm.trans hcells)
      (fun g hg => isWordOrDot_of_isWord (hword g hg)) hn hlit
  exact List.map_congr_left fun g hg => (Cell.masked_of_code (hcode g hg)).symm

theorem writtenText_declared (hline : line.IsRead) {d : VariableDeclaration Cell} {rest : List Cell}
    (h : variableDeclaration none line.cells = some (d, rest)) : writtenText d.name =
      seenText d.name := by
  obtain ⟨gap, type, assigned, e, -, -, -, -, hname, -⟩ := variableDeclaration_parts h
  refine writtenText_assigned hline (a := d.indent ++ (d.keyword ++ (gap ++ type))) ?_ hname
  rw [e, List.append_assoc, List.append_assoc, List.append_assoc]

theorem seenText_word (indent : List Cell) (w : Text) (b : List Cell) :
    seenText (indent ++ (w.map codeCell ++ b)) = seenText indent ++ (w ++ seenText b) := by
  rw [seenText_append, seenText_append, seenText_codeCells]

theorem masked_varip (hline : line.IsRead) :
    (reread (keywordLine "varip" "var") line).masked = asVar line.masked := by
  have hseen := (@seesAs_leadingKeyword Cell _ "varip") line.cells
  rw [masked_eq_seenText line, asVar, hseen]
  cases h : (leadingKeyword "varip" none : Reader Cell (LeadingKeyword Cell)) line.cells with
  | none =>
    rw [reread_of_text hline (keywordLine_of_none isName_varip "var" hline h)]
    rfl
  | some r =>
    obtain ⟨k, rest⟩ := r
    obtain ⟨hcells, hindent, e⟩ := keywordLine_of_some isName_varip "var" hline h
    rw [masked_eq_seenText, reread, ScriptLine.readLine_cells, e,
      (cells_respell hline hcells hindent ⟨_, _, rfl, by decide⟩ isName_varip.tame
        isName_var.codeWord).1, seenText_word]
    rfl

/-- Where the declaration is kept, the other two rewritings remain. -/
theorem forward_of_kept {reassigned : List Cell → Bool} (hline : line.IsRead)
    (hkept : freezeLine reassigned line = line.text) :
    reread (forwardLine reassigned) line =
      reread markLine (reread (keywordLine "varip" "var") line) := by
  have hvarip :
    reread (fun line => keywordLine "varip" "var" (reread (freezeLine reassigned) line)) line =
      reread (keywordLine "varip" "var") line := by
    rw [reread, reread_of_text hline hkept, reread]
  rw [reread, forwardLine, hvarip, reread.eq_def markLine, reread_inComment]

/-- A line whose declaration is kept may get `var` for a leading `varip`, and a definition on it is
marked. -/
theorem forwarded_of_kept {t : Text} (hline : line.IsRead)
    (hkept : freezeLine (isReassigned t) line = line.text)
    (hvariable : ∀ d, variableDeclaration.readAt? line.masked = some d →
    (reassignment d.name).occursIn (mask t) = true) :
    Forwarded (fun name => (reassignment name).occursIn (mask t)) line.masked
      (reread (forwardLine (isReassigned t)) line).masked := by
  have hline' := (keeps_keywordLine isName_varip isName_var).isRead hline
  have hmasked := masked_varip hline
  have hseen :=
    readAt?_seen seesAs_functionDefinition (reread (keywordLine "varip" "var") line).cells
  rw [← masked_eq_seenText, hmasked] at hseen
  rw [forward_of_kept hline hkept]
  generalize reread (keywordLine "varip" "var") line = line' at hline' hmasked hseen
  cases h : functionDefinition none line'.cells with
  | none =>
    rw [reread_of_text hline' (markLine_of_none hline' h), hmasked]
    refine .kept hvariable fun d hd => ?_
    rw [hseen, readAt?_of_none h] at hd
    cases hd
  | some r =>
    obtain ⟨d, rest⟩ := r
    rw [readAt?_of_some h] at hseen
    cases hmethod : d.method with
    | some mark =>
      rw [reread_of_text hline' (markLine_of_marked hline' h hmethod), hmasked]
      refine .kept hvariable fun d' hd => ?_
      obtain rfl := Option.some.inj (hseen.symm.trans hd)
      exact fun e => by cases (congrArg (Option.map seenText) hmethod).symm.trans e
    | none =>
      obtain ⟨x, b, hcells, hindent, hx, e⟩ := markLine_of_some hline' h hmethod
      have hmarked : (reread markLine line').masked = seenText d.indent ++
          ("method ".toList ++ Glyph.seen x :: seenText b) := by
        rw [masked_eq_seenText, reread, ScriptLine.readLine_cells, e,
          (@cells_respell line' d.indent (x :: b) hline' [] _ hcells
          hindent ⟨x, b, rfl, isWordOrDot_of_isWord hx⟩ (by decide) codeWord_method).1,
          seenText_word]
        rfl
      rw [hmarked]
      refine .marked hseen (congrArg (Option.map seenText) hmethod) ?_ (seen_blanks hindent) hx
      rw [← hmasked, masked_eq_seenText, hcells, seenText_append]
      rfl

/-- What the step makes of a line depends on the mask alone. -/
theorem forwarded (t : Text) (hline : line.IsRead) :
    Forwarded (fun name => (reassignment name).occursIn (mask t)) line.masked
      (reread (forwardLine (isReassigned t)) line).masked := by
  have hread := readAt?_seen seesAs_variableDeclaration line.cells
  cases h : variableDeclaration none line.cells with
  | none =>
    refine forwarded_of_kept hline (freezeLine_of_none _ hline h) fun d hd => ?_
    rw [masked_eq_seenText, hread, readAt?_of_none h] at hd
    cases hd
  | some r =>
    obtain ⟨d, rest⟩ := r
    rw [readAt?_of_some h] at hread
    have hname : isReassigned t d.name = (reassignment (seenText d.name)).occursIn (mask t) := by
      rw [isReassigned, writtenText_declared hline h]
    cases hreassigned : isReassigned t d.name with
    | true =>
      refine forwarded_of_kept hline (freezeLine_of_reassigned hline h hreassigned) fun d' hd => ?_
      obtain rfl := Option.some.inj (hread.symm.trans hd)
      exact hname.symm.trans hreassigned
    | false =>
      obtain ⟨y, gap, x, b, hcells, hindent, hgap, hx, e⟩ := freezeLine_of_fresh hline h hreassigned
      rw [forward_of_frozen hline hcells hindent hgap hx e, masked_eq_seenText (reread _ _),
        cells_frozen hline hcells hindent e, seenText_word, seenText_append (y :: gap)]
      refine .frozen hread (hname.symm.trans hreassigned) ?_ (seen_blanks hindent)
        (seen_blanks hgap) hx
      rw [masked_eq_seenText, hcells, seenText_word, seenText_append (y :: gap)]
      rfl

end Lines

section Fresh

open Pattern

variable {β : Type} {r : Reader Char β} {gs indent w : Text} {c y : Char}

theorem occursFrom_fresh (r : Reader Char β) {before : Option Char} (h : ∀ c, before = some c →
    Text.isWordOrDot c = false) (gs : Text) : occursFrom (fresh r) before gs =
      (fresh r).occursIn gs := by
  have hread : fresh r before = r := by
    cases before with
    | none => rfl
    | some c => rw [fresh, h c rfl]; rfl
  rw [occursIn_eq]
  cases gs with
  | nil => exact congrArg Option.isSome (congrFun hread [])
  | cons g gs => exact congrArg (·.isSome || _) (congrFun hread (g :: gs))

theorem occursIn_blanks (hr : ∀ c gs, Text.isBlank c = true → r (c :: gs) = none)
    (hindent : ∀ c ∈ indent, Text.isBlank c = true) (gs : Text) :
    (fresh r).occursIn (indent ++ gs) = (fresh r).occursIn gs := by
  induction indent with
  | nil => rfl
  | cons c indent ih =>
    obtain ⟨hc, hindent⟩ := List.forall_mem_cons.mp hindent
    have hopen : ∀ d, some c = some d → Text.isWordOrDot d = false := fun d e => by
      obtain rfl := Option.some.inj e
      exact Bool.eq_false_iff.mpr fun h =>
        Bool.noConfusion ((not_blank_of_isWordOrDot h).1.symm.trans hc)
    rw [← ih hindent, ← occursFrom_fresh r hopen (indent ++ gs), occursIn_eq,
      List.cons_append, occursFrom]
    have hnone : fresh r none (c :: (indent ++ gs)) = none := hr c _ hc
    rw [hnone]
    rfl

/-- Behind the first character of a word nothing occurs until the word ends. -/
theorem occursIn_word (hw : ∀ c ∈ w, Text.isWord c = true) (hne : w ≠ [])
    (hy : Text.isBlank y = true) (hnone : r (w ++ y :: gs) = none) :
    (fresh r).occursIn (w ++ y :: gs) = (fresh r).occursIn gs := by
  have hopen : ∀ d, some y = some d → Text.isWordOrDot d = false := fun d e => by
    obtain rfl := Option.some.inj e
    exact Bool.eq_false_iff.mpr fun h =>
      Bool.noConfusion ((not_blank_of_isWordOrDot h).1.symm.trans hy)
  have hclosed {c : Char} (hc : Text.isWord c = true) (gs : Text) : fresh r (some c) gs = none := by
    rw [fresh, if_pos (isWordOrDot_of_isWord hc)]
    rfl
  have hinside {c : Char} (hc : Text.isWord c = true) {u : Text}
    (hu : ∀ c ∈ u, Text.isWord c = true) :
      occursFrom (fresh r) (some c) (u ++ y :: gs) = (fresh r).occursIn gs := by
    induction u generalizing c with
    | nil =>
      rw [List.nil_append, occursFrom, hclosed hc, ← occursFrom_fresh r hopen]
      rfl
    | cons d u ih =>
      obtain ⟨hd, hu⟩ := List.forall_mem_cons.mp hu
      rw [← ih hd hu, List.cons_append, occursFrom, hclosed hc]
      rfl
  cases w with
  | nil => exact absurd rfl hne
  | cons c w =>
    obtain ⟨hc, hw⟩ := List.forall_mem_cons.mp hw
    rw [← hinside hc hw, occursIn_eq, List.cons_append, occursFrom]
    have hnone : fresh r none (c :: (w ++ y :: gs)) = none := hnone
    rw [hnone]
    rfl

end Fresh

section AsVar

variable {code : Text}

theorem asVar_of_none
    (h : (leadingKeyword "varip" : Pattern Char (LeadingKeyword Char)).readAt? code = none) :
    asVar code = code := by
  rw [asVar, Option.map_eq_none_iff.mp h]

theorem asVar_of_firstWord (h : firstWord code ≠ "varip".toList) :
    (leadingKeyword "varip" : Pattern Char (LeadingKeyword Char)).readAt? code = none := by
  refine Option.eq_none_iff_forall_ne_some.mpr fun k hk => h ?_
  obtain ⟨rest, hk⟩ := readAt?_eq_some hk
  exact (congrArg firstWord (List.map_id code)).symm.trans (leadingKeyword_firstWord (by decide) hk)

theorem firstWord_asVar {k : LeadingKeyword Char}
    (h : (leadingKeyword "varip" : Pattern Char (LeadingKeyword Char)).readAt? code = some k) :
    firstWord (asVar code) = "var".toList := by
  obtain ⟨rest, hk⟩ := readAt?_eq_some h
  obtain ⟨-, hindent, -, y, rest', rfl, hy⟩ := leadingKeyword_eq_some hk
  rw [asVar, hk]
  exact firstWord_cons hindent (by decide) (by decide) (not_word_of_blank hy)

end AsVar

/-- The words that the step writes at the start of a line, and the word that it replaces. -/
def writtenWords : List Text := ["let".toList, "var".toList, "method".toList]

theorem word_of_written : ∀ w ∈ writtenWords, (∀ c ∈ w, Text.isWord c = true) ∧ w ≠ [] := by decide

namespace Forwarded

open Pattern

variable {reassigned : Text → Bool} {code code' : Text} (h : Forwarded reassigned code code')
include h

/-- The words that the step writes or replaces at the start of a line hide nothing that occurs
behind them. -/
theorem occursIn_fresh {β : Type} {r : Reader Char β} (hblank : ∀ c gs, Text.isBlank c = true →
    r (c :: gs) = none) (hword : ∀ w ∈ writtenWords, ∀ y gap x b,
      (∀ c ∈ y :: gap, Text.isBlank c = true) →
      Text.isWord x = true → r (w ++ (y :: gap ++ x :: b)) = none) :
    (fresh r).occursIn code' = (fresh r).occursIn (asVar code) := by
  have hbehind {w : Text} (hmem : w ∈ writtenWords) {indent gap b : Text} {x y : Char}
      (hindent : ∀ c ∈ indent, Text.isBlank c = true) (hgap : ∀ c ∈ y :: gap, Text.isBlank c = true)
        (hx : Text.isWord x = true) :
      (fresh r).occursIn (indent ++ (w ++ (y :: gap ++ x :: b))) =
        (fresh r).occursIn (gap ++ x :: b) := by
    have hw := word_of_written w hmem
    rw [occursIn_blanks hblank hindent]
    exact occursIn_word hw.1 hw.2 (hgap y List.mem_cons_self) (hword w hmem y gap x b hgap hx)
  cases h with
  | @frozen d indent gap b x y hread hname e hindent hgap hx =>
    have hsame : asVar code = code := by
      refine asVar_of_none (asVar_of_firstWord ?_)
      obtain ⟨rest, hd⟩ := readAt?_eq_some hread
      rw [← List.map_id code]
      exact fun k => absurd ((variableDeclaration_firstWord hd).symm.trans k) (by decide)
    rw [hsame, e, hbehind (by decide) hindent hgap hx, hbehind (by decide) hindent hgap hx]
  | kept => rfl
  | @marked d indent b x hread hmethod e hindent hx =>
    have hsplit : "method ".toList ++ x :: b = "method".toList ++ ([' '] ++ x :: b) := rfl
    rw [e, hsplit, hbehind (by decide) hindent (by decide) hx, occursIn_blanks hblank hindent]
    rfl

theorem varip : varipWord.occursIn code' = varipWord.occursIn (asVar code) := by
  refine h.occursIn_fresh (fun c gs hc => ?_) fun w hw y gap x b hgap hx => ?_
  · refine Option.eq_none_iff_forall_ne_some.mpr fun ⟨u, rest⟩ hread => ?_
    obtain ⟨v, _, hv, -⟩ := discard_bind_eq_some.mp hread
    obtain ⟨e, hseen⟩ := exactly_eq_some.mp hv
    cases v with
    | nil => cases hseen
    | cons d v =>
      obtain ⟨rfl, -⟩ := List.cons.inj e
      obtain rfl : c = 'v' := (List.cons.inj hseen).1
      exact absurd hc (by decide)
  · refine Option.eq_none_iff_forall_ne_some.mpr fun ⟨u, rest⟩ hread => ?_
    obtain ⟨v, rest', hv, -⟩ := discard_bind_eq_some.mp hread
    obtain ⟨e, hseen⟩ := exactly_eq_some.mp hv
    obtain rfl : v = "varip".toList := (List.map_id v).symm.trans hseen
    have hy := hgap y List.mem_cons_self
    simp only [writtenWords, List.mem_cons, List.not_mem_nil, or_false] at hw
    rcases hw with rfl | rfl | rfl
    · cases e
    · obtain rfl : y = 'i' := Option.some.inj (congrArg (·[3]?) e)
      exact absurd hy (by decide)
    · cases e

theorem reassigns {name : Text} (hname : name ≠ [] ∧ ∀ c ∈ name, Text.isWord c = true) :
    (reassignment name).occursIn code' = (reassignment name).occursIn (asVar code) := by
  refine h.occursIn_fresh (fun c gs hc => ?_) fun w hw y gap x b hgap hx => ?_
  · refine Option.eq_none_iff_forall_ne_some.mpr fun ⟨u, rest⟩ hread => ?_
    obtain ⟨v, _, hv, -⟩ := discard_bind_eq_some.mp hread
    obtain ⟨e, hseen⟩ := exactly_eq_some.mp hv
    obtain rfl : v = name := (List.map_id v).symm.trans hseen
    cases v with
    | nil => exact hname.1 rfl
    | cons d v =>
      obtain ⟨rfl, -⟩ := List.cons.inj e
      exact Bool.noConfusion ((not_word_of_blank hc).symm.trans (hname.2 c List.mem_cons_self))
  · have hsigns : ∀ sign ∈ reassignmentSigns, ∃ c cs, sign.toList = c :: cs ∧
        Text.isWord c = false :=
      fun sign hsign => by
        simp only [reassignmentSigns, List.mem_cons, List.not_mem_nil, or_false] at hsign
        rcases hsign with rfl | rfl | rfl | rfl | rfl | rfl <;> exact ⟨_, _, rfl, by decide⟩
    refine Option.eq_none_iff_forall_ne_some.mpr fun ⟨u, rest⟩ hread => ?_
    obtain ⟨v, rest₁, hv, hread⟩ := discard_bind_eq_some.mp hread
    obtain ⟨gap', rest₂, hgap', hread⟩ := discard_bind_eq_some.mp hread
    obtain ⟨v', rest₃, hsign, -⟩ := discard_eq_some.mp hread
    obtain ⟨_, hr, hsign⟩ := firstOf_eq_some hsign
    obtain ⟨sign, hmem, rfl⟩ := List.mem_map.mp hr
    obtain ⟨rfl, hseen⟩ := exactly_eq_some.mp hsign
    obtain ⟨c, cs, hlist, hc⟩ := hsigns sign hmem
    obtain rfl : v' = c :: cs := (List.map_id v').symm.trans (hseen.trans hlist)
    obtain ⟨e, hseen⟩ := exactly_eq_some.mp hv
    obtain rfl : v = name := (List.map_id v).symm.trans hseen
    obtain ⟨rfl, isGap⟩ := blanks_eq_some hgap'
    -- Both sides begin with a word that ends before what is no word character, so the words are the
    -- same.
    obtain rfl : w = v := by
      obtain ⟨hword, hne⟩ := word_of_written w hw
      have hleft : firstWord ([] ++ (w ++ (y :: gap ++ x :: b))) = w :=
        firstWord_cons (List.forall_mem_nil _) hword hne
          (not_word_of_blank (hgap y List.mem_cons_self))
      have hright : firstWord ([] ++ (v ++ (gap' ++ (c :: cs ++ rest₃)))) = v := by
        refine firstWord_append (List.forall_mem_nil _) hname.2 hname.1 fun d hd => ?_
        cases gap' with
        | nil => exact Option.some.inj hd ▸ hc
        | cons d' gap' => exact Option.some.inj hd ▸ not_word_of_blank (isGap d' List.mem_cons_self)
      exact hleft.symm.trans ((congrArg firstWord e).trans hright)
    have hbehind := List.append_cancel_left e
    have hskip : blanks (y :: gap ++ x :: b) = some (y :: gap, x :: b) :=
      run_append hgap fun _ hd => Option.some.inj hd ▸ not_blank_of_word hx
    rw [hbehind] at hskip
    obtain ⟨-, e⟩ := Prod.mk.inj (Option.some.inj (hgap'.symm.trans hskip))
    obtain ⟨rfl, -⟩ := List.cons.inj e
    exact Bool.noConfusion (hc.symm.trans hx)

/-- A variable is declared on the line that comes out exactly if `asVar` shows a declaration that is
not frozen. -/
theorem variable_iff {d : VariableDeclaration Char} : variableDeclaration.readAt? code' = some d ↔
    variableDeclaration.readAt? (asVar code) = some d ∧
      ((leadingKeyword "varip" : Pattern Char (LeadingKeyword Char)).readAt? code = none →
        reassigned d.name = true) := by
  cases h with
  | @frozen d' indent gap b x y hread hname e hindent hgap hx =>
    have hnone :
        (leadingKeyword "varip" : Pattern Char (LeadingKeyword Char)).readAt? code = none :=
      asVar_of_firstWord fun k => absurd ((firstWord_of_variable hread).symm.trans k) (by decide)
    have hlet : firstWord (indent ++ ("let".toList ++ (y :: gap ++ x :: b))) = "let".toList :=
      firstWord_cons hindent (by decide) (by decide) (not_word_of_blank (hgap y List.mem_cons_self))
    rw [asVar_of_none hnone]
    refine ⟨fun h => absurd (hlet.symm.trans (firstWord_of_variable h)) (by decide),
      fun ⟨h, hkept⟩ => ?_⟩
    obtain rfl := Option.some.inj (hread.symm.trans h)
    exact Bool.noConfusion (hname.symm.trans (hkept hnone))
  | kept hvariable hdefinition =>
    refine ⟨fun h => ⟨h, fun hnone => ?_⟩, fun h => h.1⟩
    rw [asVar_of_none hnone] at h
    exact hvariable d h
  | @marked d' indent b x hread hmethod e hindent hx =>
    have hmethod := firstWord_marked (x :: b) hindent
    refine ⟨fun h => absurd (hmethod.symm.trans (firstWord_of_variable h)) (by decide),
      fun ⟨h, _⟩ => ?_⟩
    cases (functionDefinition_of_declared h).symm.trans hread

theorem import_iff : importStatement.readAt? code' ≠ none ↔
    importStatement.readAt? code ≠ none ∧ functionDefinition.readAt? code = none := by
  have hvarip {k}
    (h : (leadingKeyword "varip" : Pattern Char (LeadingKeyword Char)).readAt? code = some k)
      (himport : importStatement.readAt? code ≠ none) : False :=
    absurd ((firstWord_of_leading (by decide) h).symm.trans (firstWord_of_import himport))
      (by decide)
  cases h with
  | @frozen d indent gap b x y hread hname e hindent hgap hx =>
    have hlet : firstWord (indent ++ ("let".toList ++ (y :: gap ++ x :: b))) = "let".toList :=
      firstWord_cons hindent (by decide) (by decide) (not_word_of_blank (hgap y List.mem_cons_self))
    exact ⟨fun h => absurd (hlet.symm.trans (firstWord_of_import h)) (by decide),
      fun h => absurd ((firstWord_of_variable hread).symm.trans (firstWord_of_import h.1))
        (by decide)⟩
  | kept hvariable hdefinition =>
    cases hleading : (leadingKeyword "varip" : Pattern Char (LeadingKeyword Char)).readAt? code with
    | none =>
      rw [asVar_of_none hleading] at hdefinition ⊢
      refine ⟨fun h => ⟨h, Option.eq_none_iff_forall_ne_some.mpr fun d hd => ?_⟩, fun h => h.1⟩
      exact absurd ((firstWord_of_method hd (hdefinition d hd)).symm.trans (firstWord_of_import h))
        (by decide)
    | some k =>
      exact ⟨fun h => absurd ((firstWord_asVar hleading).symm.trans (firstWord_of_import h))
        (by decide), fun h => (hvarip hleading h.1).elim⟩
  | @marked d indent b x hread hmethod e hindent hx =>
    have hmethod := firstWord_marked (x :: b) hindent
    refine ⟨fun h => absurd (hmethod.symm.trans (firstWord_of_import h)) (by decide),
      fun ⟨h, hnone⟩ => ?_⟩
    cases hleading : (leadingKeyword "varip" : Pattern Char (LeadingKeyword Char)).readAt? code with
    | none =>
      rw [asVar_of_none hleading, hnone] at hread
      cases hread
    | some k => exact (hvarip hleading h).elim

end Forwarded

end PineTools.Convert
