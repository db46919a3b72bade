import BallotMix.Entropy.Prime
import BallotMix.Group.Basic
import BallotMix.Hex

/-!
# Parameter sets

A table of safe primes from 48 to 3072 binary digits, each with the generator four, known by short
names and in part by their size.  The moduli are stored as hexadecimal text and checked when a set
is loaded.  `Group.generate` makes a fresh set of a wanted size.
-/

namespace BallotMix.Group

/-- The generator of all parameter sets. -/
def presetGenerator : Int := 4

/-- The moduli, by name in the order of the names, in hexadecimal digits. -/
def presetModuli : List (String × String) := [
  ("256", "B7E151628AED2A6ABF7158809CF4F3C762E7160F38B4DA56A784D904519216D3"),
  ("512",
    "B7E151628AED2A6ABF7158809CF4F3C762E7160F38B4DA56A784D9045190CFEF324E7738926CFBE5F4BF8D8D" ++
    "8C31D763DA06C80ABB1185EB4F7C7B5757F5F9E3"),
  ("lg",
    "B7E151628AED2A6ABF7158809CF4F3C762E7160F38B4DA56A784D9045190CFEF324E7738926CFBE5F4BF8D8D" ++
    "8C31D763DA06C80ABB1185EB4F7C7B5757F5958490CFD47D7C19BB42158D9554F7B46BCED55C4D79FD5F24D6" ++
    "613C31C3839A2DDF8A9A276BCFBFA1C877C56284DAB79CD4C2B3293D20E9E5EAF02AC60ACC93ED874422A52E" ++
    "CB238FEEE5AB6ADD835FD1A0753D0A8F78E537D2B95BB79D8DCAEC642C1E9F23B829B5C2780BF38737DF8BB3" ++
    "00D01334A0D0BD8645CBFA73A6160FFE393C48CBBBCA060F0FF8EC6D31BEB5CCEED7F2F0BB088017163BC60D" ++
    "F45A0ECB1BCD289B06CBBFEA21AD08E1847F3F7378D56CED94640D6EF0D3D37BE69D0063"),
  ("md",
    "B7E151628AED2A6ABF7158809CF4F3C762E7160F38B4DA56A784D9045190CFEF324E7738926CFBE5F4BF8D8D" ++
    "8C31D763DA06C80ABB1185EB4F7C7B5757F5958490CFD47D7C19BB42158D9554F7B46BCED55C4D79FD5F24D6" ++
    "613C31C3839A2DDF8A9A276BCFBFA1C877C56284DAB79CD4C2B3293D20E9E5EAF02AC60ACC942593"),
  ("sm", "B7E151629927"),
  ("xl",
    "B7E151628AED2A6ABF7158809CF4F3C762E7160F38B4DA56A784D9045190CFEF324E7738926CFBE5F4BF8D8D" ++
    "8C31D763DA06C80ABB1185EB4F7C7B5757F5958490CFD47D7C19BB42158D9554F7B46BCED55C4D79FD5F24D6" ++
    "613C31C3839A2DDF8A9A276BCFBFA1C877C56284DAB79CD4C2B3293D20E9E5EAF02AC60ACC93ED874422A52E" ++
    "CB238FEEE5AB6ADD835FD1A0753D0A8F78E537D2B95BB79D8DCAEC642C1E9F23B829B5C2780BF38737DF8BB3" ++
    "00D01334A0D0BD8645CBFA73A6160FFE393C48CBBBCA060F0FF8EC6D31BEB5CCEED7F2F0BB088017163BC60D" ++
    "F45A0ECB1BCD289B06CBBFEA21AD08E1847F3F7378D56CED94640D6EF0D3D37BE67008E186D1BF275B9B241D" ++
    "EB64749A47DFDFB96632C3EB061B6472BBF84C26144E49C2D04C324EF10DE513D3F5114B8B5D374D93CB8879" ++
    "C7D52FFD72BA0AAE7277DA7BA1B4AF1488D8E836AF14865E6C37AB6876FE690B571121382AF341AFE94F77BC" ++
    "F06C83B8FF5675F0979074AD9A787BC5B9BD4B0C5937D3EDE4C3A79396419CD7")]

def presetAliases : List (String × String) :=
  [("48", "sm"), ("1024", "md"), ("2048", "lg"), ("3072", "xl")]

def presetNames : List String := presetModuli.map Prod.fst

def preset (name : String) : Result Group := do
  let key := (presetAliases.lookup name).getD name
  match presetModuli.lookup key with
  | none => throw (.argument (.unknownPreset name))
  | some digits => ofSafePrime (← Hex.number digits) presetGenerator

/-- A fresh parameter set with a modulus of the given number of binary digits. -/
def generate {σ : Type} [Source σ] (bits : Int) : Draw σ Group := do
  if bits < minimumBits then throw (.argument .modulusTooShort)
  let p ← RandomPrime.draw bits true
  ofSafePrime p presetGenerator

end BallotMix.Group
