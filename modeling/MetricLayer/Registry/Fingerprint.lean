import MetricLayer.Digest.Sha256
import MetricLayer.Registry.Basic
import MetricLayer.Schema.Encode

/-!
# Fingerprints

The fingerprint of a list of entities is the digest of their JSON texts, each on a line of its own.
A line feed inside a text is escaped, so the lines tell the entities apart.
-/

namespace MetricLayer

open Schema

/-- The document that a fingerprint is the digest of. -/
def fingerprintDocument (es : List Entity) : List Char :=
  es.flatMap fun e => e.toJson.compact ['\n']

/-- The fingerprint of a list of entities. -/
def fingerprint (es : List Entity) : String :=
  Sha256.hexDigest (String.ofList (fingerprintDocument es)).toUTF8.data.toList

/-- The fingerprint of the registered entities. -/
def Registry.fingerprint (r : Registry) : String := MetricLayer.fingerprint r.entities

end MetricLayer
