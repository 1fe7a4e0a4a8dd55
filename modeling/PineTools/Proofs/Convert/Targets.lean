import PineTools.Proofs.Construct.CalledNames
import PineTools.Proofs.Construct.Definitions
import PineTools.Proofs.Convert.Imports

/-! The version that a conversion reaches. Each step puts its marker first, and what it does to the
body of the script leaves that marker the first one: renamed calls and replaced keywords stand in
code, an import is added behind the marker, and what is dropped is an import. So the result is of
the version asked for, and longer ways go through the versions in between. -/
namespace PineTools.Convert

open Mode

variable {v : ScriptVersion} {t : Text}

section Replacements

variable {line : ScriptLine} {a taken b : List Cell}

theorem oneLine_taken (hline : line.IsRead) (hcells : line.cells = a ++ (taken ++ b)) :
    Text.OneLine (writtenText taken) := by
  intro h
  apply hline.2
  have htext : line.text = writtenText a ++ (writtenText taken ++ writtenText b) := by
    rw [← writtenText_append, ← writtenText_append, ← hcells]
    rfl
  rw [htext]
  exact List.mem_append_right _ (List.mem_append_left _ h)

theorem drop_written (i m r : List Cell) :
    (writtenText (i ++ (m ++ r))).drop (i.length + m.length) = writtenText r := by
  rw [writtenText, ← List.map_drop, ← List.append_assoc, ← List.length_append, List.drop_left' rfl]
  rfl

theorem start_of_passed (hline : line.IsRead) (hcells : line.cells = a ++ (taken ++ b))
    (h : Pattern.passed none a = none ∨ Pattern.passed none a = some '\n') : a = [] := by
  rcases List.eq_nil_or_concat a with rfl | ⟨init, x, rfl⟩
  · rfl
  · rw [List.concat_eq_append] at *
    rw [Pattern.passed_none, List.getLast?_concat] at h
    rcases h with h | h
    · cases h
    · have hn : x.char = '\n' := char_of_newline (Option.some.inj h)
      refine absurd ?_ hline.2
      rw [ScriptLine.text, hcells, ← hn]
      exact List.mem_map_of_mem
        (List.mem_append_left _ (List.mem_append_right _ (List.mem_singleton_self x)))

theorem code_behind_indent (hline : line.IsRead) {indent : List Cell} {x : Cell}
    (hcells : line.cells = indent ++ x :: b) (hindent : ∀ g ∈ indent, Text.isBlank (Glyph.seen g) =
      true) (hx : Text.isWordOrDot (Glyph.seen x) = true) :
    x.region = .code := by
  have hread := hline.cells_eq.symm.trans hcells
  exact (code_behind_blank hread (fun y hy => hindent y (List.mem_of_getLast? hy)) hx).1

theorem keepsOrDeparts_indent (hline : line.IsRead) {indent rest : List Cell} {x : Cell}
    (hcells : line.cells = (indent ++ x :: rest) ++ b)
    (hindent : ∀ g ∈ indent, Text.isBlank (Glyph.seen g) = true)
    (hx : Text.isWordOrDot (Glyph.seen x) = true) {c : Char} {l : Text}
    (hc : Text.isBlank c = false ∧ c ≠ '/') (hone : Text.OneLine (c :: l)) :
    KeepsOrDeparts (indent ++ x :: rest) (writtenText indent ++ c :: l) := by
  have hsplit : line.cells = indent ++ x :: (rest ++ b) := by
    rw [hcells, List.append_assoc, List.cons_append]
  refine ⟨fun k => ?_,
    .inr ⟨indent, x, rest, c, l, rfl, code_behind_indent hline hsplit hindent hx, rfl, hc⟩⟩
  rcases List.mem_append.mp k with k | k
  · refine @oneLine_taken line [] indent (x :: (rest ++ b)) hline hsplit k
  · exact hone k

end Replacements

theorem rewrites_renameCalls {name new : Text} (hname : Repair.IsName name)
    (hnew : Repair.IsName new) :
    Rewrites (callOf name : Pattern Cell Unit) fun _ _ => new := by
  refine ⟨lineWise_callOf_name hname, fun line hline a taken b u hcells happ => ?_⟩
  obtain ⟨called, e, hseen, gap, y, rest, hb, hgap, hy⟩ := callOf_eq_some happ
  obtain rfl : taken = called := (List.append_left_inj b).mp e
  have hword : ∀ g ∈ taken, Text.isWordOrDot g.masked = true := fun g hg =>
    hname.2 _ (hseen ▸ List.mem_map_of_mem (f := Glyph.seen) hg)
  -- A blank or the parenthesis follows, and neither is part of a literal.
  obtain ⟨z, zs, hz, hznl, hzlit⟩ : ∃ z zs, b = z :: zs ∧ z.char ≠ '\n' ∧
      z.region.isLiteral = false := by
    have hmem {z : Cell} (hz : z ∈ b) : z ∈ cellsFrom (.ofLine line.inComment) line.text := by
      rw [← hline.cells_eq, hcells]
      exact List.mem_append_right a (List.mem_append_right taken hz)
    cases gap with
    | nil =>
      refine ⟨y, rest, hb, ?_⟩
      have hy : y.masked = '(' := hy
      have hmem := hmem (z := y) (by rw [hb]; exact List.mem_cons_self)
      obtain ⟨hcode, hchar⟩ := code_of_masked hmem (by rw [hy]; decide) (by rw [hy]; decide)
        (by rw [hy]; decide)
        (by rw [hy]; rintro (_ | _) <;> decide)
      rw [hcode, hchar, hy]
      exact ⟨by decide, rfl⟩
    | cons z gap =>
      have hmem := hmem (z := z) (by rw [hb]; exact List.mem_cons_self)
      exact ⟨z, gap ++ y :: rest, hb, region_of_blank hmem (hgap z List.mem_cons_self)⟩
  rw [hz] at hcells
  have hcode := code_of_name (hline.cells_eq.symm.trans hcells) hword hznl hzlit
  refine ⟨fun k => (not_blank_of_isWordOrDot (hnew.2 _ k)).2 rfl, .inr ?_⟩
  cases taken with
  | nil => exact absurd hseen.symm hname.1
  | cons x taken =>
    cases new with
    | nil => exact absurd rfl hnew.1
    | cons c new =>
      have hc := hnew.2 c List.mem_cons_self
      refine ⟨[], x, taken, c, new, rfl, hcode x List.mem_cons_self, rfl,
        (not_blank_of_isWordOrDot hc).1, ?_⟩
      rintro rfl
      exact absurd hc (by decide)

theorem keepsOrDeparts_withKeyword {line : ScriptLine} (hline : line.IsRead)
    {indent keyword more b : List Cell} (hcells : line.cells = (indent ++ (keyword ++ more)) ++ b)
    (hindent : ∀ g ∈ indent, Text.isBlank (Glyph.seen g) = true) {old new : String}
    (hseen : seenText keyword = old.toList) (hold : Repair.IsName old.toList)
    (hnew : Repair.IsName new.toList) :
    KeepsOrDeparts (indent ++ (keyword ++ more))
    (withKeyword (indent ++ (keyword ++ more)) indent keyword new) := by
  have hwritten : withKeyword (indent ++ (keyword ++ more)) indent keyword new =
      writtenText indent ++ (new.toList ++ writtenText more) := by
    rw [withKeyword, drop_written, List.append_assoc]
  have hmore : Text.OneLine (writtenText more) := by
    refine @oneLine_taken line (indent ++ keyword) more b hline ?_
    rw [hcells]
    simp only [List.append_assoc]
  rw [hwritten]
  cases keyword with
  | nil => exact absurd hseen.symm hold.1
  | cons x keyword =>
    have hx : Text.isWordOrDot (Glyph.seen x) = true := hold.2 _ (hseen ▸ List.mem_cons_self)
    cases hnewlist : new.toList with
    | nil => exact absurd hnewlist hnew.1
    | cons c new =>
      rw [hnewlist] at hnew
      have hc := hnew.2 c List.mem_cons_self
      refine keepsOrDeparts_indent hline hcells hindent hx ⟨(not_blank_of_isWordOrDot hc).1, ?_⟩ ?_
      · rintro rfl
        exact absurd hc (by decide)
      · intro k
        rcases List.mem_append.mp (show '\n' ∈ c :: new ++ writtenText more from k) with k | k
        · exact (not_blank_of_isWordOrDot (hnew.2 _ k)).2 rfl
        · exact hmore k

theorem isName_let : Repair.IsName "let".toList := by decide

theorem isName_var : Repair.IsName "var".toList := by decide

theorem isName_varip : Repair.IsName "varip".toList := by decide

def asFrozen (reassigned : List Cell → Bool) (gs : List Cell) (d : VariableDeclaration Cell) :
    Text :=
  if reassigned d.name then writtenText gs else withKeyword gs d.indent d.keyword "let"

def asMethod (gs : List Cell) (d : FunctionDefinition Cell) : Text :=
  if d.method.isSome then writtenText gs
  else writtenText d.indent ++ "method ".toList ++ (writtenText gs).drop d.indent.length

def asFunction (gs : List Cell) (d : FunctionDefinition Cell) : Text :=
  match d.method with
  | none => writtenText gs
  | some m => writtenText d.indent ++ (writtenText gs).drop (d.indent.length + m.length)

section Definitions

variable {gs mark : List Cell} {d : FunctionDefinition Cell}

theorem asMethod_of_none (h : d.method = none) :
    asMethod gs d = writtenText d.indent ++ "method ".toList ++
      (writtenText gs).drop d.indent.length := by
  rw [asMethod, h]
  rfl

theorem asMethod_of_some (h : d.method = some mark) : asMethod gs d = writtenText gs := by
  rw [asMethod, h]
  rfl

theorem asFunction_of_none (h : d.method = none) :
    asFunction gs d = writtenText gs := by rw [asFunction, h]

theorem asFunction_of_some (h : d.method = some mark) :
    asFunction gs d = writtenText d.indent ++ (writtenText gs).drop
      (d.indent.length + mark.length) := by
  rw [asFunction, h]

end Definitions

theorem rewrites_freezeVariables (reassigned : List Cell → Bool) :
    Rewrites variableDeclaration (asFrozen reassigned) := by
  refine ⟨lineWise_variableDeclaration, fun line hline a taken b d hcells happ => ?_⟩
  obtain ⟨hstart, happ⟩ := Pattern.atLineStart_eq_some.mp happ
  obtain rfl := start_of_passed hline hcells hstart
  have happ : variableDeclaration none (taken ++ b) = some (d, b) := happ
  obtain ⟨gap, x, more, e, hindent, hseen, -⟩ := variableDeclaration_eq_some happ
  obtain rfl : taken = d.indent ++ (d.keyword ++ (gap ++ x :: more)) := by
    refine (List.append_left_inj b).mp ?_
    rw [e]
    simp only [List.append_assoc, List.cons_append]
  rw [asFrozen]
  split
  · exact ⟨oneLine_taken hline hcells, .inl rfl⟩
  · exact keepsOrDeparts_withKeyword hline hcells hindent hseen isName_var isName_let

theorem rewrites_replaceKeyword {old new : String} (hold : Repair.IsName old.toList)
    (hnew : Repair.IsName new.toList) :
    Rewrites (leadingKeyword old : Pattern Cell (LeadingKeyword Cell)) fun gs k =>
      withKeyword gs k.indent k.keyword new := by
  have hnl : '\n' ∉ old.toList := fun k => (not_blank_of_isWordOrDot (hold.2 _ k)).2 rfl
  refine ⟨lineWise_leadingKeyword hold.1 hnl, fun line hline a taken b k hcells happ => ?_⟩
  obtain ⟨hstart, happ⟩ := Pattern.atLineStart_eq_some.mp happ
  obtain rfl := start_of_passed hline hcells hstart
  have happ : leadingKeyword old none (taken ++ b) = some (k, b) := happ
  obtain ⟨e, hindent, hseen, -⟩ := leadingKeyword_eq_some happ
  obtain rfl : taken = k.indent ++ (k.keyword ++ []) := by
    refine (List.append_left_inj b).mp ?_
    rw [e]
    simp only [List.append_assoc, List.nil_append]
  exact keepsOrDeparts_withKeyword hline hcells hindent hseen hold hnew

theorem definition_parts {line : ScriptLine} (hline : line.IsRead) {a taken b : List Cell}
    {d : FunctionDefinition Cell} (hcells : line.cells = a ++ (taken ++ b))
    (happ : functionDefinition (Pattern.passed none a) (taken ++ b) = some (d, b)) :
    a = [] ∧ (∀ g ∈ d.indent, Text.isBlank (Glyph.seen g) = true) ∧ ∃ x body,
      taken = d.indent ++ (d.method.getD [] ++ x :: body) ∧ Text.isWordOrDot (Glyph.seen x) = true ∧
        ∀ m, d.method = some m → methodMark (m ++ (x :: body ++ b)) = some (m, x :: body ++ b) := by
  obtain ⟨hstart, happ⟩ := Pattern.atLineStart_eq_some.mp happ
  obtain rfl := start_of_passed hline hcells hstart
  have happ : functionDefinition none (taken ++ b) = some (d, b) := happ
  obtain ⟨x, body, e, hindent, hx, hmark⟩ := functionDefinition_taken happ
  exact ⟨rfl, hindent, x, body, e, isWordOrDot_of_isWord hx, hmark⟩

theorem rewrites_addMethod : Rewrites functionDefinition asMethod := by
  refine ⟨lineWise_functionDefinition, fun line hline a taken b d hcells happ => ?_⟩
  obtain ⟨rfl, hindent, x, body, rfl, hx, -⟩ := definition_parts hline hcells happ
  cases hmethod : d.method with
  | some m =>
    rw [hmethod] at hcells
    rw [asMethod_of_some hmethod]
    exact ⟨oneLine_taken hline hcells, .inl rfl⟩
  | none =>
    rw [hmethod] at hcells
    have hwritten : (writtenText (d.indent ++ ([] ++ x :: body))).drop d.indent.length =
        writtenText (x :: body) :=
      drop_written d.indent [] (x :: body)
    rw [asMethod_of_none hmethod, Option.getD_none, hwritten, List.append_assoc]
    refine keepsOrDeparts_indent hline hcells hindent hx ⟨by decide, by decide⟩ fun k => ?_
    rcases List.mem_append.mp (show '\n' ∈ "method ".toList ++ writtenText (x :: body) from
      k) with k | k
    · exact absurd k (by decide)
    · refine @oneLine_taken line d.indent (x :: body) b hline ?_ k
      rw [hcells]
      simp only [Option.getD_none, List.nil_append, List.append_assoc]

theorem rewrites_dropMethod : Rewrites functionDefinition asFunction := by
  refine ⟨lineWise_functionDefinition, fun line hline a taken b d hcells happ => ?_⟩
  obtain ⟨rfl, hindent, x, body, rfl, hx, hmark⟩ := definition_parts hline hcells happ
  cases hm : d.method with
  | none =>
    rw [hm] at hcells
    rw [asFunction_of_none hm]
    exact ⟨oneLine_taken hline hcells, .inl rfl⟩
  | some m =>
    rw [hm] at hcells
    obtain ⟨-, keyword, gap, rfl, hseen, hne, hgap⟩ := methodMark_eq_some (hmark m hm)
    cases keyword with
    | nil => cases hseen
    | cons k keyword =>
      have hk : Text.isWordOrDot (Glyph.seen k) = true := by
        have : Glyph.seen k = 'm' := (List.cons.inj hseen).1
        rw [this]
        decide
      -- What stood behind the keyword stands in code too.
      have hsplit : line.cells = (d.indent ++ (k :: keyword ++ gap)) ++ x :: (body ++ b) := by
        rw [hcells]
        simp only [Option.getD_some, List.nil_append, List.append_assoc, List.cons_append]
      have hlast : ∀ y, (d.indent ++ (k :: keyword ++ gap)).getLast? = some y →
          Text.isBlank y.masked = true := by
        intro y hy
        rw [← List.append_assoc, List.getLast?_append,
          Option.or_of_isSome (List.getLast?_isSome.mpr hne)] at hy
        exact hgap y (List.mem_of_getLast? hy)
      obtain ⟨hcode, hn, -⟩ := code_behind_blank (hline.cells_eq.symm.trans hsplit) hlast hx
      have hxchar : x.masked = x.char := Cell.masked_of_code hcode
      have hx : Text.isWordOrDot x.char = true := hxchar ▸ hx
      rw [asFunction_of_some hm, Option.getD_some, drop_written]
      refine keepsOrDeparts_indent hline hcells hindent hk ⟨(not_blank_of_isWordOrDot hx).1, ?_⟩ ?_
      · intro e
        rw [e] at hx
        exact absurd hx (by decide)
      · exact @oneLine_taken line _ (x :: body) b hline hsplit

def NamesOnly (tables : RenameTables Text) : Prop :=
  ∀ p ∈ tables.declarationRenames ++ (tables.remoteDataRenames ++ tables.namespacedFunctions),
    Repair.IsName p.1 ∧ Repair.IsName p.2

instance (tables : RenameTables Text) : Decidable (NamesOnly tables) :=
  inferInstanceAs (Decidable (∀ p ∈ (_ : List (Text × Text)), _))

theorem forall_mem_setPair {P : Text → Text → Prop} {key value : Text} {pairs : List (Text × Text)}
    (hpairs : ∀ p ∈ pairs, P p.1 p.2) (hnew : ∀ k, k = key → P k value) :
    ∀ p ∈ RenameTables.setPair key value pairs, P p.1 p.2 := by
  induction pairs with
  | nil => exact List.forall_mem_singleton.mpr (hnew key rfl)
  | cons q pairs ih =>
    obtain ⟨hq, hpairs⟩ := List.forall_mem_cons.mp hpairs
    rw [RenameTables.setPair]
    split
    case isTrue hkey => exact List.forall_mem_cons.mpr ⟨hnew q.1 (beq_iff_eq.mp hkey), hpairs⟩
    case isFalse => exact List.forall_mem_cons.mpr ⟨hq, ih hpairs⟩

theorem NamesOnly.renames {tables : RenameTables Text} (h : NamesOnly tables) :
    ∀ p ∈ tables.renames, Repair.IsName p.1 ∧ Repair.IsName p.2 := by
  rw [NamesOnly, List.forall_mem_append, List.forall_mem_append] at h
  obtain ⟨hdeclarations, hremote, -⟩ := h
  rw [RenameTables.renames]
  generalize tables.declarationRenames = merged at hdeclarations
  generalize tables.remoteDataRenames = remote at hremote
  induction remote generalizing merged with
  | nil => exact hdeclarations
  | cons p rest ih =>
    obtain ⟨hp, hrest⟩ := List.forall_mem_cons.mp hremote
    refine ih _ (forall_mem_setPair (P := fun a b => Repair.IsName a ∧ Repair.IsName b)
      hdeclarations ?_) hrest
    rintro k rfl
    exact hp

theorem marked_foldl {ι : Type} {f : Text → ι → Text} {xs : List ι}
    (hf : ∀ x ∈ xs, ∀ t, Marked v t → Marked v (f t x)) (h : Marked v t) :
    Marked v (xs.foldl f t) := by
  induction xs generalizing t with
  | nil => exact h
  | cons x xs ih =>
    obtain ⟨hx, hxs⟩ := List.forall_mem_cons.mp hf
    exact ih hxs (hx t h)

section Tables

variable {tables : RenameTables Text}

theorem marked_modernizeNames (htables : NamesOnly tables) (h : Marked v t) :
    Marked v (modernizeNames tables t) := by
  rw [modernizeNames]
  refine marked_foldl (fun p hp t ht => ?_) (marked_foldl (fun p hp t ht => ?_) h)
  · split
    · exact ht
    · obtain ⟨hold, hnew⟩ := htables p (List.mem_append_right _ (List.mem_append_right _ hp))
      exact (rewrites_renameCalls hold hnew).marked ht
  · obtain ⟨hold, hnew⟩ := htables.renames p hp
    exact (rewrites_renameCalls hold hnew).marked ht

theorem marked_restoreNames (htables : NamesOnly tables) (h : Marked v t) :
    Marked v (restoreNames tables t) := by
  rw [restoreNames]
  refine marked_foldl (fun p hp t ht => ?_) (marked_foldl (fun p hp t ht => ?_) h)
  · obtain ⟨hold, hnew⟩ := htables p (List.mem_append_right _ (List.mem_append_right _ hp))
    exact (rewrites_renameCalls hnew hold).marked ht
  · obtain ⟨hold, hnew⟩ := htables.renames p hp
    exact (rewrites_renameCalls hnew hold).marked ht

theorem marked_body (htables : NamesOnly tables) (step : Step) (h : Marked v t) :
    Marked v (step.body tables t) := by
  cases step with
  | v4ToV5 => exact marked_modernizeNames htables h
  | v5ToV4 => exact marked_restoreNames htables h
  | v5ToV6 =>
    have hfrozen :=
      (rewrites_freezeVariables fun name => (reassignment (writtenText name)).occursIn
        (mask t)).marked h
    have hvarip := (rewrites_replaceKeyword isName_varip isName_var).marked hfrozen
    exact marked_addImport tables (rewrites_addMethod.marked hvarip)
  | v6ToV5 =>
    have hlet := (rewrites_replaceKeyword isName_let isName_var).marked h
    exact marked_dropImport tables (rewrites_dropMethod.marked hlet)

theorem marked_apply (htables : NamesOnly tables) (t : Text) (step : Step) :
    Marked step.target (step.apply tables t) :=
  marked_body htables step (marked_setMarker step.target t)

/-- Where a way ends, its last step gives the version. -/
theorem target_of_path {current target : ScriptVersion} (h : current ≠ target) :
    ∃ steps step, path current target = steps ++ [step] ∧ step.target = target := by
  cases current <;> cases target <;> first
    | exact absurd rfl h
    | exact ⟨[], _, rfl, rfl⟩
    | exact ⟨[_], _, rfl, rfl⟩

@[simp] theorem path_self (v : ScriptVersion) : path v v = [] := by cases v <;> rfl

theorem detectVersion_foldl (htables : NamesOnly tables) {fallback current target : ScriptVersion}
    {script : Text} (h : detectVersion script fallback = .ok current) :
    detectVersion ((path current target).foldl (Step.apply tables) script) fallback = .ok
      target := by
  by_cases hsame : current = target
  · subst hsame
    rw [path_self]
    exact h
  · obtain ⟨steps, step, hpath, rfl⟩ := target_of_path hsame
    rw [hpath, List.foldl_append]
    exact (marked_apply htables _ step).detectVersion fallback

def Between (a m b : ScriptVersion) : Prop :=
  a.number + 1 = m.number ∧ m.number + 1 = b.number ∨ b.number + 1 = m.number ∧
    m.number + 1 = a.number

/-- A way over two steps goes through the version in between. -/
theorem path_between {a m b : ScriptVersion} (h : Between a m b) :
    path a b = path a m ++ path m b := by
  cases a <;> cases m <;> cases b <;> first | rfl | exact absurd h (by unfold Between; decide)

/-- A conversion from a known version takes the steps of the way. -/
theorem convert_eq {fallback current : ScriptVersion} {script : Text} {target : Json}
    (hdetect : detectVersion script fallback = .ok current)
    (hparse : ScriptVersion.parse target = .ok v) :
    convert fallback tables script target =
      .ok ((path current v).foldl (Step.apply tables) script) := by
  rw [convert, hparse]
  change (convertTo fallback tables script v).mapError _ = _
  rw [convertTo, hdetect]
  rfl

/-- A conversion that gives a script knew the version of the script and the one asked for. -/
theorem convert_eq_ok {fallback : ScriptVersion} {script r : Text} {target : Json}
    (h : convert fallback tables script target = .ok r) :
    ∃ u v, detectVersion script fallback = .ok u ∧ ScriptVersion.parse target = .ok v ∧
      r = (path u v).foldl (Step.apply tables) script := by
  cases hparse : ScriptVersion.parse target with
  | error e =>
    rw [convert, hparse] at h
    cases h
  | ok v =>
    cases hdetect : detectVersion script fallback with
    | error e =>
      rw [convert, hparse] at h
      change (convertTo fallback tables script v).mapError _ = _ at h
      rw [convertTo, hdetect] at h
      cases h
    | ok u =>
      rw [convert_eq hdetect hparse] at h
      exact ⟨u, v, rfl, rfl, (Except.ok.inj h).symm⟩

/-- A step and the step back restore a script, as conversions do if they are inverse to each other
on it. -/
theorem convert_there_and_back (htables : NamesOnly tables) {fallback u : ScriptVersion}
    {script : Text} {newer older : Json} (hdetect : detectVersion script fallback = .ok u)
    (hnewer : ScriptVersion.parse newer = .ok v) (holder : ScriptVersion.parse older = .ok u)
    {there back : Step} (hthere : path u v = [there]) (hback : path v u = [back])
    (h : back.apply tables (there.apply tables script) = script) :
    ((convert fallback tables script newer).bind fun r => convert fallback tables r older) = .ok
      script := by
  have hreached := @detectVersion_foldl tables htables fallback u v script hdetect
  rw [convert_eq hdetect hnewer]
  change convert fallback tables _ older = _
  rw [convert_eq hreached holder, hthere, hback, List.foldl_cons, List.foldl_nil, List.foldl_cons,
    List.foldl_nil, h]

/-- A conversion that gives a script gives one of the version asked for, and converting it again
changes nothing. Two steps at once are the two steps one after the other. -/
theorem convert_reaches_target (fallback : ScriptVersion) (htables : NamesOnly tables)
    (script r : Text) (target : Json) (h : convert fallback tables script target = .ok r) :
    ∃ v, ScriptVersion.parse target = .ok v ∧ detectVersion r fallback = .ok v ∧
    convert fallback tables r target = .ok r ∧
      ∀ current m middle, detectVersion script fallback = .ok current →
      ScriptVersion.parse middle = .ok m →
        Between current m v →
          ((convert fallback tables script middle).bind fun between =>
            convert fallback tables between target) = .ok r := by
  cases hparse : ScriptVersion.parse target with
  | error e =>
    rw [convert, hparse] at h
    cases h
  | ok v =>
    cases hdetect : detectVersion script fallback with
    | error e =>
      rw [convert, hparse] at h
      change (convertTo fallback tables script v).mapError _ = _ at h
      rw [convertTo, hdetect] at h
      cases h
    | ok current =>
      rw [convert_eq hdetect hparse] at h
      obtain rfl : (path current v).foldl (Step.apply tables) script = r := Except.ok.inj h
      have hreached := @detectVersion_foldl tables htables fallback current v script hdetect
      refine ⟨v, rfl, hreached, ?_, ?_⟩
      · rw [convert_eq hreached hparse, path_self, List.foldl_nil]
      · intro current' m middle hcurrent hmiddle hbetween
        obtain rfl : current = current' := Except.ok.inj hcurrent
        have hmid := @detectVersion_foldl tables htables fallback current m script hdetect
        rw [convert_eq hdetect hmiddle]
        change convert fallback tables _ target = _
        rw [convert_eq hmid hparse, ← List.foldl_append, ← path_between hbetween]

end Tables

theorem namesOnly_shipped : NamesOnly .shipped := by decide +kernel

/-- A script of the oldest version becomes one of the newest. -/
theorem convert_reaches_newest : NamesOnly .shipped ∧
    convert .v5 .shipped "//@version=4\nstudy(1)\nvar a = sma (b)".toList (.str "v6".toList) =
      .ok "//@version=6\nimport ta\nindicator(1)\nlet a = ta.sma (b)".toList ∧
    detectVersion "//@version=6\nimport ta\nindicator(1)\nlet a = ta.sma (b)".toList
      .v5 = .ok .v6 := by
  have hconvert : convert .v5 .shipped "//@version=4\nstudy(1)\nvar a = sma (b)".toList
    (.str "v6".toList) =
      .ok "//@version=6\nimport ta\nindicator(1)\nlet a = ta.sma (b)".toList := by decide +kernel
  obtain ⟨v, hv, hdetect, -⟩ := convert_reaches_target .v5 namesOnly_shipped _ _ _ hconvert
  have hparse : ScriptVersion.parse (.str "v6".toList) = .ok .v6 := by decide +kernel
  obtain rfl : v = .v6 := Except.ok.inj (hv.symm.trans hparse)
  exact ⟨namesOnly_shipped, hconvert, hdetect⟩

end PineTools.Convert
