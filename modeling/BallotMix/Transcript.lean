import BallotMix.Group.Basic
import BallotMix.Hash.Expand

/-!
# Transcripts

A proof takes its challenge from a hash of everything the parties have said.  A `Transcript` is the
list of what was said, each a value under a label; its encoding puts in front of every label and
every value its length, so that the encoding determines the list.  Elements are written at the width
of the group.  A value that cannot be written leaves the transcript as it was when it was reached.
-/

namespace BallotMix

/-- A labelled value. -/
structure Field where
  label : Bytes
  value : Bytes
deriving DecidableEq, Repr

namespace Field

/-- The label and the value, each behind its length. -/
def encode (f : Field) : Bytes :=
  Bytes.ofUInt32 f.label.length32 ++ f.label ++ Bytes.ofUInt32 f.value.length32 ++ f.value

end Field

/-- The values said so far, in order. -/
structure Transcript where
  fields : List Field
deriving DecidableEq, Repr

/-- A computation that adds to a transcript. -/
abbrev Recorder := ExceptT Error (StateM Transcript)

namespace Transcript

def start (domain : Bytes) : Transcript := ⟨[⟨Bytes.ofText "domain", domain⟩]⟩

def push (t : Transcript) (label value : Bytes) : Transcript := ⟨t.fields ++ [⟨label, value⟩]⟩

/-- The bytes that are hashed. -/
def encode (t : Transcript) : Bytes := t.fields.flatMap Field.encode

def digest (t : Transcript) : Bytes := sha256 t.encode

/-- The transcript after more was added to it. -/
def extend (t : Transcript) (more : Recorder Unit) : Result Transcript :=
  match more.run t with
  | (.ok (), t) => .ok t
  | (.error e, _) => .error e

/-! ## Adding values -/

def append (label value : Bytes) : Recorder Unit :=
  modify fun t => t.push label value

def appendWord (label : Bytes) (value : UInt64) : Recorder Unit :=
  append label (Bytes.ofUInt64 value)

/-- Adds a number at the width of a group element. -/
def appendElement (G : Group) (label : Bytes) (x : Int) : Recorder Unit := do
  append label (← Number.toBytes x G.elementBytes)

/-- Adds a list of numbers, with its length in front. -/
def appendElements (G : Group) (label : Bytes) (xs : List Int) : Recorder Unit := do
  appendWord (label ++ Bytes.ofText ".len") (UInt64.ofNat xs.length)
  xs.forM (appendElement G label)

/-- Adds the modulus and the generator of the group. -/
def appendGroup (G : Group) : Recorder Unit := do
  appendElement G (Bytes.ofText "p") G.p
  appendElement G (Bytes.ofText "g") G.g

/-! ## Challenges -/

/-- The scalar that a digest stands for; sixteen bytes more than a scalar has make it close to
uniform. -/
def scalarOfDigest (G : Group) (digest : Bytes) : Result Int :=
  G.toScalar (Bytes.toNat (expand digest (G.scalarBytes + 16)))

/-- The challenge that the transcript gives. -/
def challenge (G : Group) (t : Transcript) : Result Int := scalarOfDigest G t.digest

/-- The scalar that a digest of a transcript and an index give. -/
def indexedScalar (G : Group) (digest : Bytes) (index : UInt64) : Result Int :=
  scalarOfDigest G (sha256 (Bytes.ofUInt64 index ++ digest))

/-- The scalar that the transcript and an index give. -/
def derivedScalar (G : Group) (t : Transcript) (index : UInt64) : Result Int :=
  indexedScalar G t.digest index

end Transcript

end BallotMix
