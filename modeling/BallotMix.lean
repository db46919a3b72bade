import BallotMix.Bytes
import BallotMix.Bytes.Lemmas
import BallotMix.Command.Interpreter
import BallotMix.Command.Numeral
import BallotMix.Command.Session
import BallotMix.Command.Settings
import BallotMix.ElGamal.Basic
import BallotMix.ElGamal.Encoding
import BallotMix.Entropy.Permutation
import BallotMix.Entropy.Prime
import BallotMix.Entropy.Source
import BallotMix.Entropy.Uniform
import BallotMix.Error
import BallotMix.Group.Basic
import BallotMix.Group.Generators
import BallotMix.Group.Preset
import BallotMix.Hash.Expand
import BallotMix.Hash.Sha256
import BallotMix.Hex
import BallotMix.Main
import BallotMix.Number.Basic
import BallotMix.Number.Jacobi
import BallotMix.Number.Lemmas
import BallotMix.Number.Modular
import BallotMix.Number.Prime
import BallotMix.Number.Root
import BallotMix.Number.Sqrt
import BallotMix.Proof.LogEquality
import BallotMix.Proof.Reencryption
import BallotMix.Proofs.Closure
import BallotMix.Proofs.Closure.Operations
import BallotMix.Proofs.Closure.Ranges
import BallotMix.Proofs.Closure.Rules
import BallotMix.Proofs.Command.Arguments
import BallotMix.Proofs.Command.Calls
import BallotMix.Proofs.Command.Commands
import BallotMix.Proofs.Command.Counting
import BallotMix.Proofs.Command.Failures
import BallotMix.Proofs.Command.Numerals
import BallotMix.Proofs.Command.Polling
import BallotMix.Proofs.Command.Readings
import BallotMix.Proofs.Command.Text
import BallotMix.Proofs.Computation
import BallotMix.Proofs.Dot
import BallotMix.Proofs.ElGamal.Encoding
import BallotMix.Proofs.ElGamal.Exponents
import BallotMix.Proofs.ElGamal.Expressions
import BallotMix.Proofs.ElGamal.JointKeys
import BallotMix.Proofs.ElGamal.Residues
import BallotMix.Proofs.Election
import BallotMix.Proofs.Entropy.Draws
import BallotMix.Proofs.Entropy.Exchanges
import BallotMix.Proofs.Entropy.Permutation
import BallotMix.Proofs.Entropy.Rejection
import BallotMix.Proofs.Entropy.Uniform
import BallotMix.Proofs.Formed
import BallotMix.Proofs.Group.Accepted
import BallotMix.Proofs.Group.Derivation
import BallotMix.Proofs.Group.Exponents
import BallotMix.Proofs.Group.Generators
import BallotMix.Proofs.Group.Parameters
import BallotMix.Proofs.Group.Preset
import BallotMix.Proofs.Hash.Expand
import BallotMix.Proofs.Hex
import BallotMix.Proofs.Hex.Reading
import BallotMix.Proofs.LogEquality
import BallotMix.Proofs.LogEquality.Soundness
import BallotMix.Proofs.Number.Inverse
import BallotMix.Proofs.Number.TrialDivision
import BallotMix.Proofs.Reencryption
import BallotMix.Proofs.Sharing.Arrival
import BallotMix.Proofs.Sharing.Batch
import BallotMix.Proofs.Sharing.Contributions
import BallotMix.Proofs.Sharing.Interpolation
import BallotMix.Proofs.Sharing.NonceReuse
import BallotMix.Proofs.Sharing.Outcome
import BallotMix.Proofs.Sharing.Partition
import BallotMix.Proofs.Sharing.Polynomial
import BallotMix.Proofs.Sharing.Reconstruction
import BallotMix.Proofs.Sharing.Secrecy
import BallotMix.Proofs.Sharing.Sifting
import BallotMix.Proofs.Sharing.SingleBatch
import BallotMix.Proofs.Sharing.Tampering
import BallotMix.Proofs.Sharing.Threshold
import BallotMix.Proofs.Sharing.Verification
import BallotMix.Proofs.Shuffle.Binding
import BallotMix.Proofs.Shuffle.Chain
import BallotMix.Proofs.Shuffle.ClaimedWitness
import BallotMix.Proofs.Shuffle.Completeness
import BallotMix.Proofs.Shuffle.Exponents
import BallotMix.Proofs.Shuffle.Extraction
import BallotMix.Proofs.Shuffle.Hiding
import BallotMix.Proofs.Shuffle.Honest
import BallotMix.Proofs.Shuffle.Plaintexts
import BallotMix.Proofs.Shuffle.Prover
import BallotMix.Proofs.Shuffle.Schedules
import BallotMix.Proofs.Shuffle.Verifier
import BallotMix.Proofs.Tally
import BallotMix.Proofs.Tally.Accumulation
import BallotMix.Proofs.Transcript
import BallotMix.Proofs.Transcript.Framing
import BallotMix.Proofs.Transcript.Separation
import BallotMix.Proofs.Verifiers
import BallotMix.Proofs.Wire.Formats
import BallotMix.Proofs.Wire.Pieces
import BallotMix.Proofs.Wire.Prefixes
import BallotMix.Proofs.Wire.Recut
import BallotMix.Proofs.Workers
import BallotMix.Sharing.Basic
import BallotMix.Sharing.Combination
import BallotMix.Sharing.Decryption
import BallotMix.Sharing.Lagrange
import BallotMix.Shuffle.Basic
import BallotMix.Shuffle.Prove
import BallotMix.Shuffle.Verify
import BallotMix.Tally
import BallotMix.Transcript
import BallotMix.Wire.Format
import BallotMix.Wire.Reader
import BallotMix.Wire.Writer
import BallotMix.Workers
