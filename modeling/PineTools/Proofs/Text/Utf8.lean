import PineTools.Text.Utf8

namespace PineTools.Text

theorem decodeUtf8_encodeUtf8 (t : Text) : decodeUtf8 (encodeUtf8 t) = .ok t := by
  have hvalid : (encodeUtf8 t).IsValidUTF8 := (String.ofList t).isValidUTF8
  have hstring : String.fromUTF8? (encodeUtf8 t) = some (String.ofList t) := by
    rw [String.fromUTF8?, dif_pos hvalid]
    rfl
  rw [decodeUtf8, hstring]
  exact congrArg Except.ok (String.toList_ofList)

theorem decodeUtf8_eq_ok_iff {data : ByteArray} {t : Text} :
    decodeUtf8 data = .ok t ↔ data = encodeUtf8 t := by
  constructor
  · intro h
    rw [decodeUtf8] at h
    split at h
    · next s hs =>
      rw [String.fromUTF8?] at hs
      split at hs
      · cases hs
        cases h
        rw [encodeUtf8, String.ofList_toList]
        rfl
      · cases hs
    · cases h
  · rintro rfl
    exact decodeUtf8_encodeUtf8 t

end PineTools.Text
