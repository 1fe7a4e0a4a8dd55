import PineTools.Proofs.History.Caching
import PineTools.Proofs.Service.Sending
import PineTools.Proofs.Validate.Course
import PineTools.Service.Routes

/-! Errors of the workbench in the responses of the service. A budget that runs out, a value that
cannot be used, and an identifier or an index that is not known have a response each. Endpoint by
endpoint it is told here what the workbench can raise and what becomes of it. -/
namespace PineTools

section Failures

variable {τ κ : Type} [Timeline τ] [Clock κ τ]

theorem Course.stepDone_error {t : Tracker τ κ} {failure : ValidationFailure τ}
    (h : ((stepDone : Course τ κ Unit) t).1 = .error failure) : ∃ timeout, failure =
      .timeout timeout := by
  change (t.stepDone.1.mapError ValidationFailure.timeout) = .error failure at h
  cases hstep : t.stepDone.1 with
  | error timeout =>
    rw [hstep] at h
    cases h
    exact ⟨timeout, rfl⟩
  | ok u =>
    rw [hstep] at h
    cases h

/-- A validation fails for a marker that cannot be read, or because its budget runs out. -/
theorem validateHeard_error {listening : Bool} {settings : ValidationSettings τ}
    {fallback : ScriptVersion} {declared : Option ScriptVersion} {budget : Option τ} {clock : κ}
    {script : Text} {failure : ValidationFailure τ}
    (h : (validateHeard listening settings fallback declared budget clock script).outcome =
    .error failure) :
    (∃ e, failure = .marker e) ∨ ∃ timeout, failure = .timeout timeout := by
  cases hblank : Text.isAllSpace script with
  | true =>
    rw [validateHeard_blank settings fallback declared listening budget clock hblank] at h
    cases h
  | false =>
    cases hfound : findMarker script with
    | ok found =>
      obtain ⟨-, told, -, e⟩ | ⟨j, -, -, -, -, d, told, -, -, e⟩ :=
        validateHeard_cases settings fallback declared listening budget clock hblank hfound
      · rw [e] at h
        cases h
      · rw [e] at h
        cases h
        exact .inr ⟨_, rfl⟩
    | error e =>
      have hmarker (t : Tracker τ κ) : Course.marker script t = (.error (.marker e), t) := by
        rw [Course.marker, hfound]
        rfl
      rw [validateHeard, Course.checks_apply, Course.findings, hblank, if_neg Bool.false_ne_true,
        Course.bind_apply] at h
      generalize Tracker.start (budget.getD settings.maxTime) settings.progressInterval listening
        clock = t at h
      cases hstep : (Course.stepDone : Course τ κ Unit) t with
      | mk r t' =>
        rw [hstep] at h
        cases r with
        | error failure' =>
          cases h
          exact .inr (Course.stepDone_error (congrArg Prod.fst hstep))
        | ok u =>
          simp only [Course.bind_apply, hmarker] at h
          cases h
          exact .inl ⟨e, rfl⟩

end Failures

namespace History

theorem history_again {κ : Type} {s : Store κ} {id : Text} {records : List Record}
    (h : (s.history id).1 = .ok records) :
    ((s.history id).2.history id).1 = .ok records := by
  cases hid : isId id with
  | false =>
    rw [history_of_not_isId s hid] at h
    cases h
  | true =>
    have hshown {s' : Store κ} (hcached : s'.cached? id = some records) :
        (s'.history id).1 = .ok records := by
      rw [Store.history, hid, hcached]
      rfl
    cases hcached : s.cached? id with
    | some shown =>
      have hasked : s.history id = (.ok shown, s) := by
        rw [Store.history, hid, hcached]
        rfl
      rw [hasked] at h
      rw [hasked, hasked]
      exact h
    | none =>
      cases hloaded : loadDirectory s.host s.tree (s.directory.child id) with
      | error e =>
        rw [Store.history, hid, hcached, hloaded] at h
        cases h
      | ok loaded =>
        have hasked : s.history id =
            (.ok loaded, if s.cacheEnabled then { s with cache := s.cache ++ [(id, loaded)] }
              else s) := by
          rw [Store.history, hid, hcached, hloaded]
          rfl
        rw [hasked] at h ⊢
        cases h
        dsimp only
        -- Without a cache the same files are read once more.
        split
        · next henabled =>
            exact hshown ((cached?_added henabled hcached records id).trans (if_pos rfl))
        · exact congrArg Prod.fst hasked

theorem get_again {κ : Type} {s : Store κ} {id : Text} {records : List Record}
    (h : (s.history id).1 = .ok records) (index : Int) :
    ((s.history id).2.get id (some index)).1 = .ok (recordAt? records index) := by
  rw [get_eq, history_again h]
  rfl

end History

namespace Service

def Call.id? : Call → Option Text
  | .history id | .latest id | .record id _ => some id
  | _ => none

/-- What goes wrong at the workbench: a budget that runs out, a version that is not supported, a
marker whose number cannot be read, a history that cannot be given, an identifier without a history,
an index without a record, a script that cannot be stored. -/
inductive Trouble where
  | timeout (timeout : Timeout Float)
  | version (error : VersionError)
  | marker (error : Decimal.NumeralError)
  | history (error : History.LoadError)
  | unknownId (id : Text)
  | unknownIndex (id : Text) (index : Int)
  | storing (error : History.SaveError)

namespace Trouble

def ofValidation : ValidationFailure Float → Trouble
  | .timeout t => .timeout t
  | .version e => .version e
  | .marker e => .marker e

def ofSave : SaveFailure → Trouble
  | .validation failure => ofValidation failure
  | .store e => .storing e

/-- The response that is documented: 504 with the diagnostic of a timeout, 400 with the message of a
value error, 404 for what is not known. A barred lookup, metadata that nest too deeply and a script
that the file system does not take are no value errors; a null character in a path is one. -/
def documented : Trouble → Option Response
  | timeout t => some (.ofDetail 504 t.diagnostic.toJson)
  | version e => some (.ofDetail 400 (.ofString e.message))
  | marker e => some (.ofDetail 400 (.ofString e.message))
  | history (.file _) | history .tooDeep => none
  | history e => some (.ofDetail 400 (.ofString e.message))
  | unknownId id => some (.ofDetail 404 (.str ("No history for script ".toList ++ id)))
  | unknownIndex id index =>
    some (.ofDetail 404
      (.str ("Script ".toList ++ id ++ " has no version at index ".toList ++ Json.intText index)))
  | storing (.file .nullCharacter) =>
    some (.ofDetail 400 (.ofString Files.FileError.nullCharacter.message))
  | storing _ => none

def failure (call : Call) : Trouble → Failure
  | timeout t =>
    match call with
    | .save _ => .uncaught
    | _ => .http 504 t.diagnostic.toJson
  | version e => badRequest e.message
  | marker _ => .uncaught
  | history (.file _) | history .tooDeep => .uncaught
  | history e => badRequest e.message
  | unknownId id => notFound ("No history for script ".toList ++ id)
  | unknownIndex id index => Service.unknownIndex id index
  | storing e => Service.ofSave (.store e)

end Trouble

section Raised

variable {κ ι : Type} [Clock κ Float] [Clock ι Int]

inductive Raises (w : Workbench κ ι) : Call → Trouble → Prop
  /-- The declared version is not supported. -/
  | declared {body : ValidateBody} {version : Text} {e : VersionError}
      (given : body.version = some version) (nonempty : version ≠ [])
      (raised : ScriptVersion.parse (.str version) = .error e) :
      Raises w (.validate body) (.version e)
  /-- The validation fails. -/
  | validation {body : ValidateBody} {declared : Option ScriptVersion}
      {failure : ValidationFailure Float} (read : declaredVersion body.version = .ok declared)
      (raised : (w.validateAs declared body.maxTime body.script).1 = .error failure) :
      Raises w (.validate body) (.ofValidation failure)
  /-- The target version is not supported. -/
  | target {body : ConvertBody} {e : VersionError}
      (raised : ScriptVersion.parse (.str body.target) = .error e) :
      Raises w (.convert body) (.version e)
  /-- The version of the script to convert cannot be read. -/
  | source {body : ConvertBody} {v : ScriptVersion} {e : Decimal.NumeralError}
      (read : ScriptVersion.parse (.str body.target) = .ok v)
      (raised : w.detect body.script = .error e) : Raises w (.convert body) (.marker e)
  /-- The conversion fails. -/
  | conversion {body : ConvertBody} {v source : ScriptVersion} {e : Decimal.NumeralError}
      (read : ScriptVersion.parse (.str body.target) = .ok v)
      (detected : w.detect body.script = .ok source)
      (raised : w.convertTo v body.script = .error e) : Raises w (.convert body) (.marker e)
  /-- The script is not saved. -/
  | saving {body : SaveBody} {failure : SaveFailure}
      (raised : (w.save body.notes body.script).1 = .error failure) :
      Raises w (.save body) (.ofSave failure)
  /-- The history cannot be given. -/
  | loading {call : Call} {id : Text} {e : History.LoadError} (asks : call.id? = some id)
      (raised : (w.history id).1 = .error e) : Raises w call (.history e)
  /-- The history is empty. -/
  | unknownId {call : Call} {id : Text} (asks : call.id? = some id)
      (empty : (w.history id).1 = .ok []) : Raises w call (.unknownId id)
  /-- The history has no record at the index. -/
  | unknownIndex {id : Text} {index : Int} {records : List History.Record}
      (found : (w.history id).1 = .ok records) (nonempty : records ≠ [])
      (missing : ((w.history id).2.get id (some index)).1 = .ok none) :
      Raises w (.record id index) (.unknownIndex id index)

/-- What escapes an endpoint: a budget that runs out while a script is saved, a marker whose number
cannot be read, and a null character in the path to save to. -/
def Escapes (call : Call) (trouble : Trouble) : Prop :=
  (∃ body t, call = .save body ∧ trouble = .timeout t) ∨ (∃ e, trouble = .marker e) ∨
    trouble = .storing (.file .nullCharacter)

variable {w : Workbench κ ι} {call : Call} {trouble : Trouble}

omit [Clock ι Int] in
theorem validateAs_failure {declared : Option ScriptVersion} {budget : Option Float} {script : Text}
    {failure : ValidationFailure Float}
    (h : (w.validateAs declared budget script).1 = .error failure) :
    (∃ e, failure = .marker e) ∨ ∃ t, failure = .timeout t :=
  validateHeard_error h

theorem save_failure {notes : Option Text} {script : Text} {failure : ValidationFailure Float}
    (h : (w.save notes script).1 = .error (.validation failure)) :
    (∃ e, failure = .marker e) ∨ ∃ t, failure = .timeout t := by
  rw [Workbench.save] at h
  cases hdetected : w.detect script with
  | error e =>
    rw [hdetected] at h
    cases h
    exact .inl ⟨e, rfl⟩
  | ok version =>
    rw [hdetected] at h
    dsimp only at h
    cases hvalidated : w.validateAs none none script with
    | mk outcome w' =>
      rw [hvalidated] at h
      cases outcome with
      | error failure' =>
        cases h
        exact validateAs_failure (congrArg Prod.fst hvalidated)
      | ok result =>
        dsimp only [Workbench.keep] at h
        cases hstored : (w'.store.save script version result.valid notes).1 with
        | error e =>
          rw [hstored] at h
          cases h
        | ok id =>
          rw [hstored] at h
          cases h

theorem declaredVersion_eq_error {version : Option Text} {failure : Failure}
    (h : declaredVersion version = .error failure) :
    ∃ v e, version = some v ∧ v ≠ [] ∧ ScriptVersion.parse (.str v) = .error e := by
  cases version with
  | none => cases h
  | some v =>
    cases v with
    | nil => cases h
    | cons c v =>
      cases hparsed : ScriptVersion.parse (.str (c :: v)) with
      | error e => exact ⟨c :: v, e, rfl, List.cons_ne_nil c v, hparsed⟩
      | ok parsed =>
        change (parseVersion (c :: v)).map some = _ at h
        rw [parseVersion, hparsed] at h
        cases h

omit [Clock κ Float] [Clock ι Int] in
/-- The records of an identifier are there when they are asked for once more. -/
theorem get_of_history {id : Text} {records : List History.Record}
    (h : (w.history id).1 = .ok records) (index : Int) :
    ((w.history id).2.get id (some index)).1 = .ok (History.recordAt? records index) :=
  History.get_again h index

omit [Clock κ Float] [Clock ι Int] in
theorem showRecord_eq (w : Workbench κ ι) (id : Text) (index : Int) :
    (showRecord w id index).1 = match requireHistory id (w.history id).1 with
      | .error e => .error e
      | .ok _ => match ((w.history id).2.get id (some index)).1 with
        | .error _ => .error .uncaught
        | .ok none => .error (unknownIndex id index)
        | .ok (some record) => .ok record.toJson := by
  rw [showRecord]
  dsimp only
  cases requireHistory id (w.history id).1 with
  | error e => rfl
  | ok records =>
    dsimp only
    split <;> next h => rw [h]

theorem serve_of_unfound {id : Text} {failure : Failure} (asks : call.id? = some id)
    (h : requireHistory id (w.history id).1 = .error failure) :
    (call.serve w).1 = .error failure := by
  cases call with
  | health | validate | fix | format | convert | compare | save => cases asks
  | history id' | latest id' =>
    cases asks
    change (requireHistory id (w.history id).1).map _ = _
    rw [h]
    rfl
  | record id' index =>
    cases asks
    change (showRecord w id index).1 = _
    rw [showRecord_eq, h]

omit [Clock κ Float] [Clock ι Int] in
theorem requireHistory_ok {id : Text} {records : List History.Record}
    (h : (w.history id).1 = .ok records) (hne : records ≠ []) :
    requireHistory id (w.history id).1 = .ok records := by
  rw [h]
  cases records with
  | nil => contradiction
  | cons record records => rfl

section Found

variable {id : Text} {records : List History.Record} (h : (w.history id).1 = .ok records)
  (hne : records ≠ [])
include h hne

theorem serve_history :
    ((Call.history id).serve w).1 = .ok (.ofList History.Record.toJson records) := by
  change (requireHistory id (w.history id).1).map _ = _
  rw [requireHistory_ok h hne]
  rfl

theorem serve_latest :
    ((Call.latest id).serve w).1 = .ok (records.getLast hne).toJson := by
  change (requireHistory id (w.history id).1).map _ = _
  rw [requireHistory_ok h hne]
  change Except.ok (Json.ofOption _ records.getLast?) = _
  rw [List.getLast?_eq_some_getLast hne]
  rfl

theorem serve_record (index : Int) : ((Call.record id index).serve w).1 =
    match History.recordAt? records index with
    | none => .error (unknownIndex id index)
    | some record => .ok record.toJson := by
  change (showRecord w id index).1 = _
  rw [showRecord_eq, requireHistory_ok h hne, get_of_history h index]
  cases History.recordAt? records index <;> rfl

end Found

theorem serve_validate {body : ValidateBody} {declared : Option ScriptVersion}
    (h : declaredVersion body.version = .ok declared) : ((Call.validate body).serve w).1 =
      ((w.validateAs declared body.maxTime body.script).1.mapError ofValidation).map
        ValidationResult.toJson := by
  rw [Call.serve, validateScript, h]

theorem serve_save (body : SaveBody) : ((Call.save body).serve w).1 =
    ((w.save body.notes body.script).1.mapError ofSave).map fun id =>
      .ofFields [("id", .str id)] :=
  rfl

theorem serve_convert {body : ConvertBody} {target source : ScriptVersion}
    (htarget : ScriptVersion.parse (.str body.target) = .ok target)
    (hsource : w.detect body.script = .ok source) : ((Call.convert body).serve w).1 =
      ((w.convertTo target body.script).mapError fun _ => Failure.uncaught).map fun script =>
        .ofFields [("script", .str script), ("source_version", .ofString source.name),
          ("target_version", .ofString target.name)] := by
  rw [Call.serve, convertScript, parseVersion, htarget, hsource]
  rfl

theorem serve_of_raises (h : Raises w call trouble) :
    (call.serve w).1 = .error (trouble.failure call) := by
  cases h with
  | @declared body version e given nonempty raised =>
    have hread : declaredVersion body.version = .error (badRequest e.message) := by
      rw [declaredVersion, given, Option.filter_some, if_pos (by simpa using nonempty)]
      dsimp only
      rw [parseVersion, raised]
      rfl
    rw [Call.serve, validateScript, hread]
    rfl
  | @validation body declared failure read raised =>
    obtain ⟨e, rfl⟩ | ⟨t, rfl⟩ := validateAs_failure raised
    all_goals
      rw [serve_validate read, raised]
      rfl
  | @target body e raised =>
    rw [Call.serve, convertScript, parseVersion, raised]
    rfl
  | @source body v e read raised =>
    rw [Call.serve, convertScript, parseVersion, read, raised]
    rfl
  | @conversion body v source e read detected raised =>
    rw [serve_convert read detected, raised]
    rfl
  | @saving body failure raised =>
    rw [serve_save, raised]
    cases failure with
    | store e => rfl
    | validation failure => obtain ⟨e, rfl⟩ | ⟨t, rfl⟩ := save_failure raised <;> rfl
  | @loading call id e asks raised =>
    apply serve_of_unfound asks
    rw [raised]
    cases e <;> rfl
  | @unknownId call id asks empty =>
    apply serve_of_unfound asks
    rw [empty]
    rfl
  | @unknownIndex id index records found nonempty missing =>
    have hmissing : History.recordAt? records index = none :=
      Except.ok.inj ((get_of_history found index).symm.trans missing)
    rw [serve_record found nonempty, hmissing]
    rfl

/-- What an endpoint returns can be sent. -/
theorem serve_sendable {value : Json} (h : (call.serve w).1 = .ok value) : Sendable value := by
  cases call with
  | health =>
    cases h
    exact .ofFields (by simp)
  | fix script =>
    cases h
    exact sendable_fix _
  | format body =>
    cases h
    exact sendable_format _
  | compare body =>
    cases h
    exact .ofFields (by simp [Sendable.ofList])
  | validate body =>
    cases hread : declaredVersion body.version with
    | error failure =>
      rw [Call.serve, validateScript, hread] at h
      cases h
    | ok declared =>
      rw [serve_validate hread] at h
      exact sendable_of_map sendable_validation h
  | convert body =>
    cases hread : ScriptVersion.parse (.str body.target) with
    | error e =>
      rw [serve_of_raises (.target hread)] at h
      cases h
    | ok v =>
      cases hdetected : w.detect body.script with
      | error e =>
        rw [serve_of_raises (.source hread hdetected)] at h
        cases h
      | ok source =>
        rw [serve_convert hread hdetected] at h
        exact sendable_of_map (fun _ => .ofFields (by simp)) h
  | save body =>
    rw [serve_save] at h
    exact sendable_of_map (fun _ => .ofFields (by simp)) h
  | history id => exact sendable_of_map (fun _ => .ofList sendable_record _) h
  | latest id => exact sendable_of_map (fun _ => .ofOption sendable_record _) h
  | record id index =>
    change (showRecord w id index).1 = _ at h
    rw [showRecord_eq] at h
    split at h
    · cases h
    · split at h
      · cases h
      · cases h
      · cases h
        exact sendable_record _

/-- A history that cannot be given, or is empty, is something raised, so only the records of any
other are left to look at. -/
theorem raises_of_history {id : Text} (asks : call.id? = some id)
    (hfound : ∀ records, (w.history id).1 = .ok records → records ≠ [] →
      ∃ trouble, Raises w call trouble) :
    ∃ trouble, Raises w call trouble := by
  cases hhistory : (w.history id).1 with
  | error e => exact ⟨_, .loading asks hhistory⟩
  | ok records =>
    cases records with
    | nil => exact ⟨_, .unknownId asks hhistory⟩
    | cons record records => exact hfound _ hhistory (List.cons_ne_nil record records)

theorem raises_of_serve {failure : Failure} (h : (call.serve w).1 = .error failure) :
    ∃ trouble, Raises w call trouble := by
  cases call with
  | health | fix | format | compare => cases h
  | validate body =>
    cases hread : declaredVersion body.version with
    | error failure' =>
      obtain ⟨v, e, hv, hne, he⟩ := declaredVersion_eq_error hread
      exact ⟨_, .declared hv hne he⟩
    | ok declared =>
      cases houtcome : (w.validateAs declared body.maxTime body.script).1 with
      | error failure => exact ⟨_, .validation hread houtcome⟩
      | ok result =>
        rw [serve_validate hread, houtcome] at h
        cases h
  | convert body =>
    cases hread : ScriptVersion.parse (.str body.target) with
    | error e => exact ⟨_, .target hread⟩
    | ok v =>
      cases hdetected : w.detect body.script with
      | error e => exact ⟨_, .source hread hdetected⟩
      | ok source =>
        cases hconverted : w.convertTo v body.script with
        | error e => exact ⟨_, .conversion hread hdetected hconverted⟩
        | ok script =>
          rw [serve_convert hread hdetected, hconverted] at h
          cases h
  | save body =>
    cases hsaved : (w.save body.notes body.script).1 with
    | error failure => exact ⟨_, .saving hsaved⟩
    | ok id =>
      rw [serve_save, hsaved] at h
      cases h
  | history id =>
    refine raises_of_history rfl fun records hfound hne => ?_
    rw [serve_history hfound hne] at h
    cases h
  | latest id =>
    refine raises_of_history rfl fun records hfound hne => ?_
    rw [serve_latest hfound hne] at h
    cases h
  | record id index =>
    refine raises_of_history rfl fun records hfound hne => ?_
    cases hat : History.recordAt? records index with
    | none =>
      exact ⟨_, .unknownIndex hfound hne ((get_of_history hfound index).trans (congrArg _ hat))⟩
    | some record =>
      rw [serve_record hfound hne, hat] at h
      cases h

end Raised

section Answered

variable {f : Framework} (conventional : f.Conventional) {call : Call} {trouble : Trouble}

theorem Trouble.failure_of_escapes (h : Escapes call trouble) :
    trouble.failure call = .uncaught := by
  obtain ⟨body, t, rfl, rfl⟩ | ⟨e, rfl⟩ | rfl := h <;> rfl

theorem not_escapes_version (call : Call) (e : VersionError) : ¬ Escapes call (.version e) := by
  rintro (⟨_, _, -, h⟩ | ⟨_, h⟩ | h) <;> cases h

theorem Trouble.documented_status {expected : Response} (h : trouble.documented = some expected) :
    expected.status ≠ 500 := by
  intro hstatus
  have hdocumented : trouble.documented.map Response.status = some 500 := by rw [h, ← hstatus]; rfl
  cases trouble with
  | history e => cases e <;> cases hdocumented
  | storing e =>
    cases e with
    | file e => cases e <;> cases hdocumented
    | undated => cases hdocumented
  | timeout | version | marker | unknownId | unknownIndex => cases hdocumented

/-- A failure that has a status has the status of an error and a detail that can be sent. -/
theorem Trouble.failure_eq_http {status : Nat} {detail : Json}
    (h : trouble.failure call = .http status detail) :
    400 ≤ status ∧ status < 600 ∧ Sendable detail := by
  cases trouble with
  | timeout t =>
    cases call <;> cases h <;> exact ⟨by decide, by decide, sendable_diagnostic t.diagnostic⟩
  | marker e => cases h
  | version | unknownId | unknownIndex =>
    cases h
    exact ⟨by decide, by decide, .str _⟩
  | history e => cases e <;> cases h <;> exact ⟨by decide, by decide, .str _⟩
  | storing e =>
    cases e with
    | undated => cases h
    | file e => cases e <;> cases h <;> exact ⟨by decide, by decide, .str _⟩

theorem Trouble.failure_of_documented {expected : Response} (hkept : ¬ Escapes call trouble)
    (hdocumented : trouble.documented = some expected) :
    ∃ status detail, trouble.failure call = .http status detail ∧
      expected = .ofDetail status detail := by
  cases trouble with
  | timeout t =>
    cases call with
    | save body => exact absurd (.inl ⟨body, t, rfl, rfl⟩) hkept
    | health | validate | fix | format | convert | compare | history | latest | record =>
      exact ⟨_, _, rfl, (Option.some.inj hdocumented).symm⟩
  | marker e => exact absurd (.inr (.inl ⟨e, rfl⟩)) hkept
  | history e =>
    cases e with
    | file | tooDeep => cases hdocumented
    | noId | badId | notText | numeral => exact ⟨_, _, rfl, (Option.some.inj hdocumented).symm⟩
  | version | unknownId | unknownIndex => exact ⟨_, _, rfl, (Option.some.inj hdocumented).symm⟩
  | storing e =>
    cases e with
    | undated => cases hdocumented
    | file e =>
      cases e with
      | nullCharacter => exact absurd (.inr (.inr rfl)) hkept
      | noEntry | device | occupied | notDirectory | isDirectory | ontoDirectory | barred =>
        cases hdocumented

include conventional

theorem Framework.Conventional.documented {expected : Response} (hkept : ¬ Escapes call trouble)
    (hdocumented : trouble.documented = some expected) :
    f.answer call (.error (trouble.failure call)) = expected := by
  obtain ⟨status, detail, hfailure, rfl⟩ := Trouble.failure_of_documented hkept hdocumented
  obtain ⟨low, high, sendable⟩ := Trouble.failure_eq_http hfailure
  rw [hfailure]
  exact conventional.failed call low high sendable

theorem Framework.Conventional.status_ne (trouble : Trouble) :
    (f.answer call (.error (trouble.failure call))).status ≠ call.okStatus := by
  have hok : call.okStatus ≤ 201 := by cases call <;> exact Nat.le_of_ble_eq_true rfl
  cases hfailure : trouble.failure call with
  | http status detail =>
    obtain ⟨low, high, sendable⟩ := Trouble.failure_eq_http hfailure
    rw [conventional.failed call low high sendable]
    change status ≠ call.okStatus
    omega
  | uncaught =>
    rw [conventional.uncaught]
    omega

end Answered

variable {κ ι : Type} [Clock κ Float] [Clock ι Int]

theorem respond_routed {f : Framework} {w : Workbench κ ι} {r : Request} {call : Call}
    (routed : f.route r = .ok call) : (respond f w r).1 = f.answer call (call.serve w).1 := by
  rw [respond, routed]

/-- A request that gets to an endpoint succeeds if the workbench raises nothing. What it raises has
the documented response, except that a timeout while a script is saved, a marker whose number cannot
be read and a null character in the path to save to are internal errors. -/
theorem errors_as_documented (f : Framework) (conventional : f.Conventional) (w : Workbench κ ι)
    (r : Request) (call : Call) (routed : f.route r = .ok call) :
    ((respond f w r).1.status = call.okStatus ↔ ∀ trouble, ¬ Raises w call trouble) ∧
      ∀ trouble, Raises w call trouble → ∀ expected, trouble.documented = some expected →
        ((respond f w r).1 = expected ↔ ¬ Escapes call trouble) ∧
        (Escapes call trouble → (respond f w r).1.status = 500) := by
  rw [respond_routed routed]
  refine ⟨⟨fun hok trouble hraises => ?_, fun hnone => ?_⟩,
    fun trouble hraises expected hdocumented => ?_⟩
  · rw [serve_of_raises hraises] at hok
    exact conventional.status_ne trouble hok
  · cases hserved : (call.serve w).1 with
    | ok value => rw [conventional.returned call (serve_sendable hserved)]
    | error failure =>
      obtain ⟨trouble, hraises⟩ := raises_of_serve hserved
      exact absurd hraises (hnone trouble)
  · rw [serve_of_raises hraises]
    have hinternal (hescapes : Escapes call trouble) :
        (f.answer call (.error (trouble.failure call))).status = 500 := by
      rw [Trouble.failure_of_escapes hescapes, conventional.uncaught]
    refine ⟨⟨fun hresponse hescapes => ?_, fun hkept => ?_⟩, hinternal⟩
    · have hstatus := hinternal hescapes
      rw [hresponse] at hstatus
      exact Trouble.documented_status hdocumented hstatus
    · exact conventional.documented hkept hdocumented

/-- A version that is not supported is a bad request. -/
theorem errors_as_documented_unsupported :
    let w : Workbench SteadyClock History.InstantClock :=
      .new .standard default .empty ⟨0.0, 0.5⟩ (.ofList [0])
    let script := "plot(close)".toList
    let body : ValidateBody := ⟨script, some "v9".toList, none⟩
    let r : Request := ⟨"post".toList, "/api/scripts/validate/".toList,
      some (.obj [("script".toList, .str script), ("version".toList, .str "v9".toList)])⟩
    let trouble := Trouble.version (.unsupported "9".toList)
    Framework.standard.Conventional ∧ Framework.standard.route r = .ok (.validate body) ∧
      Raises w (.validate body) trouble ∧
      (respond .standard w r).1 =
        .ofDetail 400 (.ofString "Unsupported PineScript version: 9") := by
  intro w script body r trouble
  have hendpoint : Endpoint.ofPath? (Endpoint.pathOf r.address) = some .validate := by
    decide +kernel
  have hrouted : Framework.standard.route r = .ok (.validate body) := by
    change (Framework.standardRoute r).mapError _ = _
    rw [Framework.standardRoute, hendpoint]
    rfl
  have hraises : Raises w (.validate body) trouble := .declared rfl (by decide) (by decide)
  have hresponse := ((errors_as_documented .standard Framework.standard_conventional w r _
    hrouted).2 trouble hraises _ rfl).1
  exact ⟨Framework.standard_conventional, hrouted, hraises,
    hresponse.mpr (not_escapes_version _ _)⟩

/-- A timeout while a script is saved is an internal error. -/
theorem save_timeout_internal :
    let settings :=
      { Settings.standard with validation := { ValidationSettings.standard with maxTime := 0.5 } }
    let w : Workbench SteadyClock History.InstantClock :=
      .new settings default .empty ⟨0.0, 1.0⟩ (.ofList [0])
    let script := "//@version=5\nindicator(\"x\")".toList
    let body : SaveBody := ⟨script, none⟩
    let r : Request := ⟨"POST".toList, "/api/scripts/versions".toList,
      some (.obj [("script".toList, .str script)])⟩
    Framework.standard.route r = .ok (.save body) ∧ ∃ t, Raises w (.save body) (.timeout t) ∧
      (Trouble.timeout t).documented = some (.ofDetail 504 t.diagnostic.toJson) ∧
      (respond .standard w r).1 = ⟨500, .text "Internal Server Error"⟩ := by
  intro settings w script body r
  have hendpoint : Endpoint.ofPath? (Endpoint.pathOf r.address) = some .save := by decide +kernel
  have hrouted : Framework.standard.route r = .ok (.save body) := by
    change (Framework.standardRoute r).mapError _ = _
    rw [Framework.standardRoute, hendpoint]
    rfl
  have hlate : (match (w.save body.notes body.script).1 with
      | .error (.validation (.timeout _)) => true
      | _ => false) = true := by decide +kernel
  split at hlate
  · next t hsaved =>
    have hraises : Raises w (.save body) (.timeout t) := .saving hsaved
    refine ⟨hrouted, t, hraises, rfl, ?_⟩
    rw [respond_routed hrouted, serve_of_raises hraises]
    rfl
  · cases hlate

end Service
end PineTools
