import PineTools.Text.Utf8

namespace PineTools.Text

def percentBytes : Text → List UInt8
  | [] => []
  | '%' :: a :: b :: rest =>
    match hexValue? a, hexValue? b with
    | some high, some low => UInt8.ofNat (16 * high + low) :: percentBytes rest
    | _, _ => 0x25 :: percentBytes (a :: b :: rest)
  | c :: rest => (encodeUtf8 [c]).toList ++ percentBytes rest

def percentDecode (t : Text) : Text := decodeLenient (percentBytes t)

end PineTools.Text
