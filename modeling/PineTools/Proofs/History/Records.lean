import PineTools.Digest.Sha256
import PineTools.History.Store
import PineTools.Proofs.Json.RoundTrip
import PineTools.Proofs.Settings.Reading
import PineTools.Proofs.Text.Utf8

/-! What a record is kept as: which metadata make up a record with a content. Its own metadata and
its content are read back as the record, and the identifier of a script is one that histories are
asked for. -/
namespace PineTools

namespace History

section Described

/-- The fields are metadata of the record, which with the content make it up. -/
structure Record.Described (reading : Reading) (fields : List (Text × Json)) (content : Text)
    (r : Record) : Prop where
  own : (Json.obj fields).field? "content" = none
  id : ∃ v, (Json.obj fields).field? "id" = some v ∧ reading.text v = .ok r.id
  timestamp : ∃ v, (Json.obj fields).field? "timestamp" = some v ∧ reading.text v = .ok r.timestamp
  content : r.content = content
  version : ∃ v, (Json.obj fields).field? "version" = some v ∧ reading.version v = .ok r.version
  valid : ∃ v, (Json.obj fields).field? "valid" = some v ∧ reading.bool v = .ok r.valid
  notes : ∃ v, ((Json.obj fields).field? "notes").getD .null = v ∧
    (v = .null ∧ r.notes = none ∨ v ≠ .null ∧ ∃ t, reading.text v = .ok t ∧ r.notes = some t)

variable {reading : Reading} {fields : List (Text × Json)} {content : Text} {r : Record}

theorem readNotes_eq_ok {notes : Option Text} :
    Read.field fields "notes" none (Read.nullable reading.text) = .ok notes ↔
      ∃ v, ((Json.obj fields).field? "notes").getD .null = v ∧
        (v = .null ∧ notes = none ∨ v ≠ .null ∧ ∃ t, reading.text v = .ok t ∧ notes = some t) := by
  rw [Read.field_eq_ok]
  cases (Json.obj fields).field? "notes" with
  | none => simp
  | some v =>
    simp only [Option.some.injEq, exists_eq_left', reduceCtorEq, false_and, or_false,
      Option.getD_some, Read.nullable_eq_ok]

theorem readRecord_eq_ok : Record.mk <$> Read.required fields "id" reading.text
      <*> Read.required fields "timestamp" reading.text <*> reading.text (.str content)
      <*> Read.required fields "version" reading.version
      <*> Read.required fields "valid" reading.bool
      <*> Read.field fields "notes" none (Read.nullable reading.text) = .ok r ↔
    Read.required fields "id" reading.text = .ok r.id ∧
      Read.required fields "timestamp" reading.text = .ok r.timestamp ∧
      reading.text (.str content) = .ok r.content ∧
      Read.required fields "version" reading.version = .ok r.version ∧
      Read.required fields "valid" reading.bool = .ok r.valid ∧
      Read.field fields "notes" none (Read.nullable reading.text) = .ok r.notes := by
  constructor
  · intro h
    obtain ⟨_, notes, h₁, hnotes, rfl⟩ := Checked.seq_eq_ok.mp h
    obtain ⟨_, valid, h₂, hvalid, rfl⟩ := Checked.seq_eq_ok.mp h₁
    obtain ⟨_, version, h₃, hversion, rfl⟩ := Checked.seq_eq_ok.mp h₂
    obtain ⟨_, content', h₄, hcontent, rfl⟩ := Checked.seq_eq_ok.mp h₃
    obtain ⟨_, timestamp, h₅, htimestamp, rfl⟩ := Checked.seq_eq_ok.mp h₄
    obtain ⟨id, hid, rfl⟩ := Checked.map_eq_ok.mp h₅
    exact ⟨hid, htimestamp, hcontent, hversion, hvalid, hnotes⟩
  · rintro ⟨hid, htimestamp, hcontent, hversion, hvalid, hnotes⟩
    rw [hid, htimestamp, hcontent, hversion, hvalid, hnotes]
    rfl

theorem ofMetadata?_eq_some_iff (hreading : reading.Sound) {metadata : Json} :
    Record.ofMetadata? reading metadata content = some r ↔
      ∃ fields, metadata = .obj fields ∧ r.Described reading fields content := by
  cases metadata with
  | obj fields =>
    have hread : Record.ofMetadata? reading (.obj fields) content = some r ↔
        (Json.obj fields).field? "content" = none ∧
          Record.mk <$> Read.required fields "id" reading.text
            <*> Read.required fields "timestamp" reading.text <*> reading.text (.str content)
            <*> Read.required fields "version" reading.version
            <*> Read.required fields "valid" reading.bool
            <*> Read.field fields "notes" none (Read.nullable reading.text) = .ok r := by
      rw [Record.ofMetadata?, ← Option.not_isSome_iff_eq_none]
      split
      · next hown => exact ⟨fun h => (nomatch h), fun h => absurd hown h.1⟩
      · next hown =>
        rw [and_iff_right hown]
        dsimp only
        split
        · next r' hr => rw [hr, Option.some.injEq, Checked.ok.injEq]
        · next faults hbad => rw [hbad]; exact ⟨fun h => (nomatch h), fun h => nomatch h⟩
    rw [hread, readRecord_eq_ok, hreading.text_str, Checked.ok.injEq, eq_comm (a := content)]
    simp only [Read.required_eq_ok, readNotes_eq_ok]
    constructor
    · rintro ⟨hown, hid, htimestamp, hcontent, hversion, hvalid, hnotes⟩
      exact ⟨fields, rfl, hown, hid, htimestamp, hcontent, hversion, hvalid, hnotes⟩
    · rintro ⟨fields', e, hown, hid, htimestamp, hcontent, hversion, hvalid, hnotes⟩
      cases e
      exact ⟨hown, hid, htimestamp, hcontent, hversion, hvalid, hnotes⟩
  | _ => exact ⟨fun h => (nomatch h), fun ⟨fields, e, _⟩ => nomatch e⟩

end Described

theorem ofMetadata?_metadata (r : Record) :
    Record.ofMetadata? .standard r.metadata r.content = some r := by
  have hversion : Read.version (.ofString r.version.name) = .ok r.version :=
    Read.version_eq_ok.mpr rfl
  refine (ofMetadata?_eq_some_iff Reading.standard_sound).mpr ⟨_, rfl, rfl, ⟨_, rfl, rfl⟩,
    ⟨_, rfl, rfl⟩, rfl, ⟨_, rfl, hversion⟩, ⟨_, rfl, rfl⟩, _, rfl, ?_⟩
  cases r.notes with
  | none => exact .inl ⟨rfl, rfl⟩
  | some t => exact .inr ⟨nofun, t, rfl, rfl⟩

theorem parse_metadataText {nesting : Nat} (h : nesting ≠ 0) (r : Record) :
    Json.parse nesting r.metadataText = .ok r.metadata := by
  refine Json.parse_render h (List.cons_ne_nil _ _) ?_ ?_
  · intro f hf
    simp only [List.mem_cons, List.not_mem_nil, or_false] at hf
    rcases hf with rfl | rfl | rfl | rfl | rfl
    · rfl
    · rfl
    · rfl
    · rfl
    · cases r.notes <;> rfl
  · have hnames :
        ["id".toList, "timestamp".toList, "version".toList, "valid".toList,
        "notes".toList].Nodup := by decide
    exact hnames

end History

namespace Digest

def isHexDigit (c : Char) : Bool := Text.isAsciiDigit c || ('a' ≤ c && c ≤ 'f')

theorem isHexDigit_digitChar : ∀ n < 16, isHexDigit n.digitChar = true := by decide

theorem isHexDigit_toDigits (n : Nat) : ∀ c ∈ Nat.toDigits 16 n, isHexDigit c = true := by
  induction n using Nat.strongRecOn with
  | ind n ih =>
    intro c hc
    rw [Nat.toDigits_eq_if (by decide)] at hc
    split at hc
    · next hn =>
      rw [List.mem_singleton.mp hc]
      exact isHexDigit_digitChar n hn
    · next hn =>
      rcases List.mem_append.mp hc with hc | hc
      · exact ih (n / 16) (by omega) c hc
      · rw [List.mem_singleton.mp hc]
        exact isHexDigit_digitChar _ (Nat.mod_lt n (by decide))

theorem isHexDigit_hexText (words : List UInt32) : ∀ c ∈ hexText words, isHexDigit c = true := by
  intro c hc
  obtain ⟨w, -, hc⟩ := List.mem_flatMap.mp hc
  rw [Text.hexPadded] at hc
  rcases List.mem_append.mp hc with hc | hc
  · rw [List.eq_of_mem_replicate hc]
    rfl
  · exact isHexDigit_toDigits _ c hc

theorem contentId_ne_nil (t : Text) : contentId t ≠ [] := by
  have hwords : ∃ w rest, sha256 (String.ofList t).toUTF8.toList = w :: rest := ⟨_, _, rfl⟩
  obtain ⟨w, rest, hwords⟩ := hwords
  have hdigits : Text.hexPadded 8 w.toNat ≠ [] := by
    rw [Text.hexPadded]
    exact List.append_ne_nil_of_right_ne_nil _ Nat.toDigits_ne_nil
  obtain ⟨c, digits, hc⟩ := List.exists_cons_of_ne_nil hdigits
  rw [contentId, hwords, hexText, List.flatMap_cons, hc, List.cons_append]
  exact List.cons_ne_nil _ _

end Digest

namespace History

theorem isId_contentId (t : Text) : isId (Digest.contentId t) = true := by
  have hhex : ∀ c ∈ Digest.contentId t, Digest.isHexDigit c = true := fun c hc =>
    Digest.isHexDigit_hexText _ c (List.mem_of_mem_take hc)
  have hlast : (Digest.contentId t).getLast? ≠ some '\n' := fun h =>
    absurd (hhex _ (List.mem_of_getLast? h)) (by decide)
  have hne : (Digest.contentId t).isEmpty = false :=
    List.isEmpty_eq_false_iff.mpr (Digest.contentId_ne_nil t)
  rw [isId, if_neg (by simpa using hlast), hne]
  exact List.all_eq_true.mpr hhex

end History
end PineTools
