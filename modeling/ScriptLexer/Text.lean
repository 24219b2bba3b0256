/-!
# Text and its UTF-8 bytes

`Text.bytes` lists the UTF-8 bytes of a string and `Text.ofBytes?` reads them back.  The two determine each other
(`Text.ofBytes?_eq_some_iff`): a list of bytes is read as `s` exactly when it is the list of bytes of `s`.
-/

namespace ScriptLexer.Text

/-- The UTF-8 bytes of a text. -/
def bytes (s : String) : List UInt8 :=
  s.toByteArray.data.toList

/-- The text with the given UTF-8 bytes, or `none` if they are no UTF-8. -/
def ofBytes? (bs : List UInt8) : Option String :=
  String.fromUTF8? bs.toByteArray

theorem toByteArray_bytes (s : String) : (bytes s).toByteArray = s.toByteArray := by
  apply ByteArray.ext
  simp [bytes, List.data_toByteArray]

theorem ofBytes?_eq_some_iff {bs : List UInt8} {s : String} : ofBytes? bs = some s ↔ bytes s = bs := by
  unfold ofBytes? String.fromUTF8?
  constructor
  · intro h
    split at h
    · cases h
      simp [bytes, String.fromUTF8, List.data_toByteArray]
    · cases h
  · rintro rfl
    rw [toByteArray_bytes, dif_pos s.isValidUTF8]
    rfl

end ScriptLexer.Text
