import NeuroMap.Codec.Basic
import NeuroMap.Diagnostic.Basic
import NeuroMap.Fingerprint.Basic

/-!
# Codecs of diagnostics and fingerprints
-/

namespace NeuroMap

namespace Severity

/-- A severity by name. -/
def codec : Codec Severity :=
  .ofCases [("Note", note), ("Warning", warning), ("Error", error)] fun
    | note => "Note"
    | warning => "Warning"
    | error => "Error"

end Severity

namespace Category

/-- A category by name. -/
def codec : Codec Category :=
  .ofCases [("Error", error), ("Warning", warning)] fun
    | error => "Error"
    | warning => "Warning"

end Category

namespace Code

/-- A code as category and number. -/
def codec : Codec Code :=
  .ofFields
    (do
      let category ← Fields.required "category" Category.codec.read
      let number ← Fields.required "number" (Data.asNatBelow UInt16.size)
      return ⟨category, UInt16.ofNat number⟩)
    fun c => [("category", Category.codec.write c.category), ("number", .ofNat c.number.toNat)]

end Code

namespace Diagnostic

/-- A diagnostic as a record. -/
def codec : Codec Diagnostic :=
  .ofFields
    (do
      let severity ← Fields.required "severity" Severity.codec.read
      let code ← Fields.required "code" Code.codec.read
      let message ← Fields.required "message" Data.asText
      let subject ← Fields.optional "subject" Data.asText
      let notes ← Fields.required "notes" (Data.asList Data.asText)
      let help ← Fields.required "help" (Data.asList Data.asText)
      return { severity, code, message, subject, notes, help })
    fun d =>
      [("severity", Severity.codec.write d.severity), ("code", Code.codec.write d.code), ("message", .text d.message),
        ("subject", .ofOption .text d.subject), ("notes", .ofTexts d.notes), ("help", .ofTexts d.help)]

end Diagnostic

namespace Fingerprint

/-- A fingerprint as the list of its sixteen bytes. -/
def codec : Codec Fingerprint where
  read d := do
    let bytes ← d.asList (Data.asNatBelow UInt8.size)
    guard (bytes.length = 16)
    return ofHashBytes (bytes.map UInt8.ofNat)
  write f := .list (f.toBytes.map fun b => .ofNat b.toNat)

end Fingerprint

end NeuroMap
