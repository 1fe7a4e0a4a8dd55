import PineTools.Settings.Config
import PineTools.Proofs.Files.Directories
import PineTools.Proofs.Settings.Reading
import PineTools.Proofs.Text.Utf8

/-! Where settings come from. A file that can be read gives all settings that the environment does
not, or none of them; what a file or the environment gives is within its bounds, except that a
duration may be no number at all. -/
namespace PineTools

section Durations

open Float.Model (UnpackedFloat)

/-- A number that is not at most zero is above zero, unless it is no number. -/
theorem positive_or_nan {x : Float} : ¬ x ≤ 0 → 0 < x ∨ x.isNaN = true := by
  have hle : x ≤ 0 ↔ x.toModel.unpack.le (.zero .positive) = true := decide_eq_true_iff
  have hlt : 0 < x ↔ UnpackedFloat.lt (.zero .positive) x.toModel.unpack = true :=
    decide_eq_true_iff
  have hnan : x.isNaN = x.toModel.unpack.isNaN := rfl
  rw [hle, hlt, hnan]
  cases x.toModel.unpack with
  | notANumber => decide
  | infinity sign => cases sign <;> decide
  | zero sign => cases sign <;> decide
  | finite sign mantissa exponent hmantissa =>
    cases sign with
    | positive => exact fun _ => .inl rfl
    | negative => exact fun h => absurd rfl h

end Durations

section Bounds

variable {r : Reading} {fields : List (Text × Json)}

/-- Lengths are at least 1, and durations are above zero unless they are no numbers. -/
structure ValidationSettings.WithinBounds (s : ValidationSettings Float) : Prop where
  maxLineLength : 1 ≤ s.maxLineLength
  maxTime : 0 < s.maxTime ∨ s.maxTime.isNaN = true
  progressInterval : 0 < s.progressInterval ∨ s.progressInterval.isNaN = true
  sizeThreshold : 1 ≤ s.sizeThreshold

structure FormatOptions.WithinBounds (o : FormatOptions) : Prop where
  indentSize : 1 ≤ o.indentSize ∧ o.indentSize ≤ 16
  maxLineLength : 1 ≤ o.maxLineLength

structure Settings.WithinBounds (s : Settings) : Prop where
  validation : s.validation.WithinBounds
  formatting : s.formatting.WithinBounds

theorem ValidationSettings.standard_withinBounds : ValidationSettings.standard.WithinBounds :=
  ⟨by decide, .inl (by decide +kernel), .inl (by decide +kernel), by decide⟩

theorem FormatOptions.standard_withinBounds :
    FormatOptions.standard.WithinBounds := ⟨by decide, by decide⟩

theorem Settings.standard_withinBounds : Settings.standard.WithinBounds :=
  ⟨ValidationSettings.standard_withinBounds, FormatOptions.standard_withinBounds⟩

section Sound

variable (hr : r.Sound)
include hr

theorem ValidationSettings.ofFields_withinBounds {s : ValidationSettings Float}
    (h : ValidationSettings.ofFields r fields = .ok s) : s.WithinBounds := by
  obtain ⟨_, ignoredRules, h₁, -, rfl⟩ := Checked.seq_eq_ok.mp h
  obtain ⟨_, warningsAsErrors, h₂, -, rfl⟩ := Checked.seq_eq_ok.mp h₁
  obtain ⟨_, sizeThreshold, h₃, hsize, rfl⟩ := Checked.seq_eq_ok.mp h₂
  obtain ⟨_, progressInterval, h₄, hinterval, rfl⟩ := Checked.seq_eq_ok.mp h₃
  obtain ⟨_, maxTime, h₅, htime, rfl⟩ := Checked.seq_eq_ok.mp h₄
  obtain ⟨maxLineLength, hlength, rfl⟩ := Checked.map_eq_ok.mp h₅
  have hstandard := standard_withinBounds
  exact
    ⟨Read.field_of (1 ≤ ·) hlength hstandard.maxLineLength fun h => (hr.natIn_bounds h).1,
      Read.field_of (fun x => 0 < x ∨ x.isNaN = true) htime hstandard.maxTime fun h =>
        positive_or_nan (hr.positive_bound h),
      Read.field_of (fun x => 0 < x ∨ x.isNaN = true) hinterval hstandard.progressInterval fun h =>
        positive_or_nan (hr.positive_bound h),
      Read.field_of (1 ≤ ·) hsize hstandard.sizeThreshold fun h => (hr.natIn_bounds h).1⟩

theorem FormatOptions.ofFields_withinBounds {o : FormatOptions}
    (h : FormatOptions.ofFields r fields = .ok o) : o.WithinBounds := by
  obtain ⟨_, updateVersionComment, h₁, -, rfl⟩ := Checked.seq_eq_ok.mp h
  obtain ⟨_, alignComments, h₂, -, rfl⟩ := Checked.seq_eq_ok.mp h₁
  obtain ⟨_, bracesOnNewLine, h₃, -, rfl⟩ := Checked.seq_eq_ok.mp h₂
  obtain ⟨_, collapseBlankLines, h₄, -, rfl⟩ := Checked.seq_eq_ok.mp h₃
  obtain ⟨_, maxLineLength, h₅, hlength, rfl⟩ := Checked.seq_eq_ok.mp h₄
  obtain ⟨_, spaceAfterCommas, h₆, -, rfl⟩ := Checked.seq_eq_ok.mp h₅
  obtain ⟨_, spacesAroundOperators, h₇, -, rfl⟩ := Checked.seq_eq_ok.mp h₆
  obtain ⟨_, useSpaces, h₈, -, rfl⟩ := Checked.seq_eq_ok.mp h₇
  obtain ⟨indentSize, hindent, rfl⟩ := Checked.map_eq_ok.mp h₈
  have hstandard := standard_withinBounds
  exact
    ⟨Read.field_of (fun n => 1 ≤ n ∧ n ≤ 16) hindent hstandard.indentSize fun h =>
        ⟨(hr.natIn_bounds h).1, (hr.natIn_bounds h).2 16 rfl⟩,
      Read.field_of (1 ≤ ·) hlength hstandard.maxLineLength fun h => (hr.natIn_bounds h).1⟩

theorem Settings.ofFields_withinBounds {s : Settings} (h : Settings.ofFields r fields = .ok s) :
    s.WithinBounds := by
  obtain ⟨_, history, h₁, -, rfl⟩ := Checked.seq_eq_ok.mp h
  obtain ⟨_, formatting, h₂, hformatting, rfl⟩ := Checked.seq_eq_ok.mp h₁
  obtain ⟨_, validation, h₃, hvalidation, rfl⟩ := Checked.seq_eq_ok.mp h₂
  obtain ⟨defaultVersion, -, rfl⟩ := Checked.map_eq_ok.mp h₃
  have hstandard := standard_withinBounds
  refine ⟨Read.field_of (·.WithinBounds) hvalidation hstandard.validation fun h => ?_,
    Read.field_of (·.WithinBounds) hformatting hstandard.formatting fun h => ?_⟩
  · obtain ⟨fields, -, h⟩ := Read.record_eq_ok.mp h
    exact ValidationSettings.ofFields_withinBounds hr h
  · obtain ⟨fields, -, h⟩ := Read.record_eq_ok.mp h
    exact FormatOptions.ofFields_withinBounds hr h

end Sound

end Bounds

namespace Config

open Files

section Files

variable (host : Host) (tree : Tree) (file : Path)

/-- The file cannot be passed over: a lookup of it is barred, it is no text, or it is a text with a
whole number that is too long or with too many brackets inside each other. -/
inductive Unreadable : Error → Prop
  | barred {e : FileError} (hbarred : tree.look host.bars file = .error e) : Unreadable (.file e)
  | notText {data : ByteArray} {fault : Utf8Fault} (hread : tree.read host.bars file = .ok data)
      (hfault : Text.decodeUtf8 data = .error fault) : Unreadable (.notText fault)
  | numeral {text : Text} {e : Decimal.NumeralError}
      (hread : tree.read host.bars file = .ok (Text.encodeUtf8 text))
      (hparse : Json.parse host.nesting text = .error (.numeral e)) : Unreadable (.numeral e)
  | tooDeep {text : Text} (hread : tree.read host.bars file = .ok (Text.encodeUtf8 text))
      (hparse : Json.parse host.nesting text = .error .tooDeep) : Unreadable .tooDeep

def FileGives (s : Settings) : Prop :=
  ∃ text fields, tree.read host.bars file = .ok (Text.encodeUtf8 text) ∧
    Json.parse host.nesting text = .ok (.obj fields) ∧ Settings.ofFields host.reading fields = .ok s

/-- The settings that hold where the environment has nothing to say. -/
def Base (s : Settings) : Prop :=
  FileGives host tree file s ∨ (∀ s', ¬ FileGives host tree file s') ∧ s = .standard

end Files

def version? (env : Environment) : Option ScriptVersion :=
  (env.value? versionVariable).bind fun t => (ScriptVersion.parse (.str t)).toOption

/-- The time budget that the environment asks for, if that is a number and not at most zero. -/
def time? (env : Environment) :
    Option Float := ((env.value? timeVariable).bind Decimal.readFloat?).filter fun x => !(x ≤ 0)

def overridden (env : Environment) (s : Settings) : Settings :=
  { s with
    defaultVersion := (version? env).getD s.defaultVersion
    validation := { s.validation with maxTime := (time? env).getD s.validation.maxTime }
    history := { s.history with directory :=
      (env.value? historyVariable).getD s.history.directory } }

theorem settings_eq (reading : Reading) (env : Environment) (fields : List (Text × Json)) :
    settings reading env fields = overridden env (fileSettings reading fields) := by
  have hhistory (s : Settings) : withHistory env s =
      { s with history :=
        { s.history with directory :=
          (env.value? historyVariable).getD s.history.directory } } := by
    rw [withHistory]
    cases env.value? historyVariable <;> rfl
  have hversion (s : Settings) : withVersion env s =
      { s with defaultVersion := (version? env).getD s.defaultVersion } := by
    rw [withVersion, version?]
    cases env.value? versionVariable with
    | none => rfl
    | some t =>
      rw [Option.map_some, Option.bind_some]
      cases ScriptVersion.parse (.str t) <;> rfl
  have htime (s : Settings) : withTime env s =
      { s with validation :=
        { s.validation with maxTime := (time? env).getD s.validation.maxTime } } := by
    rw [withTime, time?]
    cases (env.value? timeVariable).bind Decimal.readFloat? with
    | none => rfl
    | some x =>
      rw [Option.filter_some]
      by_cases hx : x ≤ 0
      · simp [hx]
      · simp [hx]
  rw [settings, hhistory, hversion, htime]
  rfl

theorem overridden_withinBounds {s : Settings} (h : s.WithinBounds) (env : Environment) :
    (overridden env s).WithinBounds := by
  refine ⟨⟨h.validation.maxLineLength, ?_, h.validation.progressInterval,
    h.validation.sizeThreshold⟩, h.formatting⟩
  cases htime : time? env with
  | none =>
    rw [overridden, htime]
    exact h.validation.maxTime
  | some x =>
    have hx : ¬ x ≤ 0 := by simpa using (Option.filter_eq_some_iff.mp htime).2
    rw [overridden, htime]
    exact positive_or_nan hx

section Loading

variable {host : Host} {tree : Tree} {file : Path}

theorem Base.withinBounds (hreading : host.reading.Sound) {s : Settings}
    (h : Base host tree file s) : s.WithinBounds := by
  rcases h with ⟨text, fields, -, -, hs⟩ | ⟨-, rfl⟩
  · exact Settings.ofFields_withinBounds hreading hs
  · exact Settings.standard_withinBounds

theorem base_of_unread (h : ∀ data, tree.read host.bars file ≠ .ok data) :
    Base host tree file (fileSettings host.reading []) :=
  .inr ⟨fun _ ⟨_, _, hread, _⟩ => h _ hread, rfl⟩

theorem fileGives_iff {text : Text} {s : Settings}
    (hread : tree.read host.bars file = .ok (Text.encodeUtf8 text)) :
    FileGives host tree file s ↔ ∃ fields, Json.parse host.nesting text = .ok (.obj fields) ∧
      Settings.ofFields host.reading fields = .ok s := by
  constructor
  · rintro ⟨text', fields, hread', hparse, hs⟩
    have hbytes : Text.encodeUtf8 text = Text.encodeUtf8 text' :=
      Except.ok.inj (hread.symm.trans hread')
    have htext : text = text' := by
      have hdecoded := Text.decodeUtf8_encodeUtf8 text
      rw [hbytes, Text.decodeUtf8_encodeUtf8] at hdecoded
      exact (Except.ok.inj hdecoded).symm
    exact ⟨fields, htext ▸ hparse, hs⟩
  · rintro ⟨fields, hparse, hs⟩
    exact ⟨text, fields, hread, hparse, hs⟩

theorem base_fileSettings {text : Text} {fields : List (Text × Json)}
    (hread : tree.read host.bars file = .ok (Text.encodeUtf8 text))
    (hparse : Json.parse host.nesting text = .ok (.obj fields)) :
    Base host tree file (fileSettings host.reading fields) := by
  rw [fileSettings]
  cases hs : Settings.ofFields host.reading fields with
  | ok s => exact .inl ⟨text, fields, hread, hparse, hs⟩
  | bad faults =>
    refine .inr ⟨fun s hgives => ?_, rfl⟩
    obtain ⟨fields', hparse', hs'⟩ := (fileGives_iff hread).mp hgives
    cases hparse.symm.trans hparse'
    cases hs.symm.trans hs'

/-- The fields that a file holds lead to the settings of the file, or to the standard ones. -/
theorem fieldsOf_outcome {data : ByteArray} (hread : tree.read host.bars file = .ok data) :
    match fieldsOf host data with
    | .error e => Unreadable host tree file e
    | .ok fields => Base host tree file (fileSettings host.reading fields) := by
  rw [fieldsOf]
  cases htext : Text.decodeUtf8 data with
  | error fault => exact .notText hread htext
  | ok text =>
    obtain rfl := Text.decodeUtf8_eq_ok_iff.mp htext
    have hnone (h : ∀ fields, Json.parse host.nesting text ≠ .ok (.obj fields)) :
        Base host tree file (fileSettings host.reading []) := by
      refine .inr ⟨fun s hgives => ?_, rfl⟩
      obtain ⟨fields, hparse, -⟩ := (fileGives_iff hread).mp hgives
      exact h fields hparse
    dsimp only
    cases hparse : Json.parse host.nesting text with
    | error e =>
      cases e with
      | malformed => exact hnone fun fields h => nomatch hparse.symm.trans h
      | numeral e => exact .numeral hread hparse
      | tooDeep => exact .tooDeep hread hparse
    | ok value =>
      cases value with
      | obj fields => exact base_fileSettings hread hparse
      | _ => exact hnone fun fields h => nomatch hparse.symm.trans h

/-- The fields that are loaded lead to the settings of the file, or to the standard ones. -/
theorem load_outcome (host : Host) (tree : Tree) (file : Path) :
    match load host tree file with
    | .error e => Unreadable host tree file e
    | .ok fields => Base host tree file (fileSettings host.reading fields) := by
  rw [load]
  cases hlook : tree.look host.bars file with
  | error e => exact .barred hlook
  | ok found =>
    cases found with
    | none =>
      refine base_of_unread fun data hread => ?_
      cases hlook.symm.trans (Tree.read_eq_ok_iff.mp hread)
    | some n =>
      dsimp only
      cases hread : tree.read host.bars file with
      | error e => exact base_of_unread fun data h => nomatch hread.symm.trans h
      | ok data => exact fieldsOf_outcome hread

theorem Unreadable.load {e : Error} (h : Unreadable host tree file e) :
    load host tree file = .error e := by
  have hopened {data : ByteArray} (hread : tree.read host.bars file = .ok data) :
      Config.load host tree file = fieldsOf host data := by
    rw [Config.load, Tree.read_eq_ok_iff.mp hread]
    dsimp only
    rw [hread]
  cases h with
  | barred hbarred => rw [Config.load, hbarred]
  | notText hread hfault => rw [hopened hread, fieldsOf, hfault]
  | numeral hread hparse | tooDeep hread hparse =>
    rw [hopened hread, fieldsOf]
    simp only [Text.decodeUtf8_encodeUtf8, hparse]

theorem load_error_iff {e : Error} :
    load host tree file = .error e ↔ Unreadable host tree file e := by
  refine ⟨fun h => ?_, Unreadable.load⟩
  have houtcome := load_outcome host tree file
  rwa [h] at houtcome

end Loading

/-- Settings are given unless the configuration file is one that cannot be passed over. The
environment comes first, then the file if all of it is acceptable, and then the standard settings;
the settings are within their bounds. -/
theorem resolve_by_priority (host : Host) (hreading : host.reading.Sound) (tree : Tree)
    (given : Option Text) (env : Environment) :
    (∀ e, resolve host tree given env = .error e ↔ Unreadable host tree (file given env) e) ∧
      ((∃ e, Unreadable host tree (file given env) e) ∨
        ∃ s base, resolve host tree given env = .ok s ∧ Base host tree (file given env) base ∧
          s = overridden env base ∧ s.WithinBounds) := by
  rw [resolve]
  cases hload : load host tree (file given env) with
  | error e =>
    refine ⟨fun e' => ?_, .inl ⟨e, load_error_iff.mp hload⟩⟩
    rw [← load_error_iff, hload, Except.map, Except.error.injEq, Except.error.injEq]
  | ok fields =>
    have hbase := load_outcome host tree (file given env)
    rw [hload] at hbase
    refine ⟨fun e => ?_, .inr ⟨settings host.reading env fields, fileSettings host.reading fields,
      rfl, hbase, settings_eq host.reading env fields, ?_⟩⟩
    · rw [← load_error_iff, hload]
      exact ⟨nofun, nofun⟩
    · rw [settings_eq]
      exact overridden_withinBounds (hbase.withinBounds hreading) env

/-- A file with an indentation of its own, and a version in the environment. -/
theorem resolve_by_priority_override :
    let text := "\x7b\"default_version\":\"v6\",\"formatting\":\x7b\"indent_size\":2\x7d\x7d".toList
    let tree : Tree :=
      ⟨[(Path.ofText "pinescript.json".toList, .file (Text.encodeUtf8 text))], fun _ => false⟩
    let env : Environment := [(versionVariable.toList, "4".toList)]
    Host.usual.reading.Sound ∧ ∃ s, resolve .usual tree none env = .ok s ∧ s.WithinBounds ∧
      s.defaultVersion = .v4 ∧ s.formatting.indentSize = 2 := by
  intro text tree env
  have hsettings : (match resolve .usual tree none env with
      | .ok s => s.defaultVersion == .v4 && s.formatting.indentSize == 2
      | .error _ => false) = true := by decide +kernel
  refine ⟨Reading.standard_sound, ?_⟩
  split at hsettings
  · next s hs =>
    obtain ⟨hfail, ⟨e, he⟩ | ⟨s', base, hs', -, -, hbounds⟩⟩ :=
      resolve_by_priority .usual Reading.standard_sound tree none env
    · cases hs.symm.trans ((hfail e).mpr he)
    · cases hs.symm.trans hs'
      simp only [Bool.and_eq_true, beq_iff_eq] at hsettings
      exact ⟨s, hs, hbounds, hsettings⟩
  · cases hsettings

/-- Bytes that are no text are not passed over, nor is a name that is too long for a file; and a
time budget that is no number is accepted. -/
theorem resolve_unguarded :
    let tree : Tree := ⟨[(Path.ofText "pinescript.json".toList, .file ⟨#[0xff]⟩)], fun _ => false⟩
    let long : Text := List.replicate 256 'a'
    resolve .usual tree none [] = .error (.notText ⟨0, [0xff], .start⟩) ∧
      resolve .usual Tree.empty none [(fileVariable.toList, long)] =
        .error (.file (.barred .nameTooLong (Path.ofText long))) ∧
      ∃ s, resolve .usual Tree.empty none [(timeVariable.toList, "nan".toList)] = .ok s ∧
        ¬ 0 < s.validation.maxTime := by
  intro tree long
  have hread : tree.read Host.usual.bars (file none []) = .ok ⟨#[0xff]⟩ :=
    Tree.read_eq_ok_iff.mpr (Tree.look_eq_ok_iff.mpr ⟨by decide +kernel, rfl⟩)
  have hfault : Text.decodeUtf8 ⟨#[0xff]⟩ = .error ⟨0, [0xff], .start⟩ := by cbv
  have hlong : Tree.empty.look Host.usual.bars (file none [(fileVariable.toList, long)]) =
      .error (.barred .nameTooLong (Path.ofText long)) :=
    Tree.look_eq_error_iff.mpr ⟨.nameTooLong, by decide +kernel, by decide +kernel⟩
  refine ⟨?_, ?_, _, rfl, by decide +kernel⟩
  · rw [resolve, (Unreadable.notText hread hfault).load]
    rfl
  · rw [resolve, (Unreadable.barred hlong).load]
    rfl

end Config
end PineTools
