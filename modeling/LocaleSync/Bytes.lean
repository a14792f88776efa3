/-
The content of files.
-/
import LocaleSync.Text.Basic

namespace LocaleSync

/-- Content, byte by byte. -/
abbrev Bytes := List UInt8

namespace Bytes

/-- The text that the bytes are in UTF-8, if they are one. -/
def text? (b : Bytes) : Option Text :=
  (String.fromUTF8? ⟨b.toArray⟩).map (·.toList)

/-- The bytes of a text in UTF-8. -/
def ofText (t : Text) : Bytes :=
  (String.ofList t).toUTF8.toList

end Bytes

end LocaleSync
