import BallotMix.Command.Session
import BallotMix.Command.Settings
import BallotMix.Group.Preset
import BallotMix.Shuffle.Prove
import BallotMix.Shuffle.Verify
import BallotMix.Sharing.Combination
import BallotMix.Tally
import BallotMix.Wire.Format

/-!
# Commands

The commands of the program, from their arguments to what they print and the exit code.  Blobs and
numbers are passed in hexadecimal.  A command prints its results in order, each when its text has been
made.  Whatever a command could fail with comes before the first of them; only a verification that
fails says so.
-/

namespace BallotMix.Command

/-- What a call leaves behind. -/
structure Outcome where
  exit : UInt32
  out : String
  err : String
deriving DecidableEq, Repr

/-- How the program is called. -/
def usage : String :=
  "用法:\n" ++
  "  mixnet_cli [--params sm|256|512|md|lg|xl] [--domain <id>] [--threads <k>] <command> ...\n" ++
  "  params\n" ++
  "  keygen\n" ++
  "  deal <t> <n>\n" ++
  "  encrypt <h> <value>\n" ++
  "  decrypt <x> <ct>\n" ++
  "  reencrypt <h> <ct>\n" ++
  "  verify-reencryption <h> <ct> <ct2> <proof>\n" ++
  "  shuffle <h> <ct>...\n" ++
  "  verify-shuffle <h> <proof> <n> <in_ct>... <out_ct>...\n" ++
  "  partial <i:x_i> <ct>\n" ++
  "  combine <commitments> <ct> <share>...\n" ++
  "  tally <x> <max> <ct>...\n"

/-! ## Arguments -/

def decimal (w : UInt64) : String := toString w.toNat

def ciphertextArgument (G : Group) (text : String) : Result Ciphertext := do
  pure (← Wire.decodeCiphertext G (← Hex.bytes text)).toCiphertext

def keyArgument (G : Group) (text : String) : Result PublicKey := do
  let h ← G.ensureKey ⟨some (← Hex.number text)⟩
  pure ⟨some h⟩

/-- A share: its index and its secret, with a colon between them. -/
def shareArgument (G : Group) (text : String) : Result Sharing.KeyShare := do
  let index := text.toList.takeWhile (· ≠ ':')
  match text.toList.dropWhile (· ≠ ':') with
  | [] => throw (.argument (.commandShape "share must be i:x_hex"))
  | _ :: secret =>
    let index ← sizeArgument (String.ofList index)
    let secret ← Hex.number (String.ofList secret)
    pure ⟨index, some secret, some (← G.genPow secret)⟩

def argumentAt (arguments : List String) (i : Nat) : Result String :=
  match arguments[i]? with
  | some text => .ok text
  | none => .error (.argument .missingArgument)

def ciphertextsAt (G : Group) (arguments : List String) : Nat → Nat → Result (List Ciphertext)
  | _, 0 => pure []
  | i, n + 1 => do
    let ct ← ciphertextArgument G (← argumentAt arguments i)
    let cts ← ciphertextsAt G arguments (i + 1) n
    pure (ct :: cts)

/-- The blob of a proof or a ciphertext as text. -/
def blobText (blob : Result Bytes) : Result String := do pure (Hex.ofBytes (← blob))

/-- Fails with the synopsis of a command unless its number of arguments is as wanted. -/
def expectArguments (wanted : Bool) (synopsis : String) : Result Unit :=
  if wanted then .ok () else .error (.argument (.commandShape synopsis))

/-! ## Commands -/

variable {σ : Type} [Source σ]

def params (G : Group) : Run σ UInt32 := do
  printLine (Hex.ofNumber G.p)
  printLine (Hex.ofNumber G.q)
  printLine (Hex.ofNumber G.g)
  pure 0

def keygen (G : Group) : Run σ UInt32 := do
  let keys ← draw G.generateKeyPair
  print (Hex.ofNumber (← present keys.secretKey.x))
  print " "
  printLine (Hex.ofNumber (← present keys.publicKey.h))
  pure 0

def printShare (share : Sharing.KeyShare) : Run σ Unit := do
  print (decimal share.index ++ ":")
  printLine (Hex.ofNumber (← present share.secret))

/-- Prints the public key, the commitments and the shares of a fresh dealing. -/
def deal (G : Group) (arguments : List String) : Run σ UInt32 := do
  match arguments with
  | [t, n] =>
    let t ← sizeArgument t
    let n ← sizeArgument n
    let dealing ← draw (Sharing.deal G t n)
    printLine (Hex.ofNumber (← present dealing.electionKey.h))
    printLine (← blobText (Wire.encodeElements G dealing.commitments.coefficients))
    dealing.shares.forM printShare
    pure 0
  | _ => throw (.argument (.commandShape "deal <t> <n>"))

def encrypt (G : Group) (arguments : List String) : Run σ UInt32 := do
  match arguments with
  | [h, value] =>
    let pk ← keyArgument G h
    let m ← G.encodeExponential (← valueArgument value)
    let c ← draw (G.encryptFresh pk (some m))
    printLine (← blobText (Wire.encodeCiphertext G c.toCiphertext))
    pure 0
  | _ => throw (.argument (.commandShape "encrypt <h> <value>"))

/-- Prints the value that a ciphertext holds under a secret key. -/
def decrypt (G : Group) (arguments : List String) : Run σ UInt32 := do
  match arguments with
  | [x, ct] =>
    let x ← Hex.number x
    let m ← G.decrypt ⟨some x⟩ (← ciphertextArgument G ct)
    let value ← G.decodeExponential (some m) defaultSearchBound
    printLine (decimal value)
    pure 0
  | _ => throw (.argument (.commandShape "decrypt <x> <ct>"))

def reencrypt (G : Group) (domain : Bytes) (arguments : List String) : Run σ UInt32 := do
  match arguments with
  | [h, ct] =>
    let pk ← keyArgument G h
    let ct ← ciphertextArgument G ct
    let made ← draw (Reencryption.reencryptWithProof G pk ct domain)
    print (← blobText (Wire.encodeCiphertext G made.1.toCiphertext))
    print " "
    printLine (← blobText (Wire.encodeReencryption G made.2))
    pure 0
  | _ => throw (.argument (.commandShape "reencrypt <h> <ct>"))

/-- Prints the verdict on a proof; the exit code tells it too. -/
def verdict (holds : Bool) : Run σ UInt32 := do
  if holds then
    printLine "OK"
    pure 0
  else
    printLine "FAIL"
    pure 1

/-- Checks a proof of re-encryption; behind the key the last argument is read first. -/
def verifyReencryption (G : Group) (domain : Bytes) (arguments : List String) : Run σ UInt32 := do
  match arguments with
  | [h, ct, again, proof] =>
    let pk ← keyArgument G h
    let proof ← Wire.decodeReencryption G (← Hex.bytes proof)
    let again ← ciphertextArgument G again
    let ct ← ciphertextArgument G ct
    verdict (← Reencryption.verify G pk ct again proof domain)
  | _ => throw (.argument (.commandShape "verify-reencryption <h> <ct> <ct2> <proof>"))

def shuffle (G : Group) (options : Shuffle.Options) (arguments : List String) : Run σ UInt32 := do
  match arguments with
  | h :: ct :: cts =>
    let pk ← keyArgument G h
    let inputs ← ((ct :: cts).mapM (ciphertextArgument G) : Result (List Ciphertext))
    let made ← draw (Shuffle.shuffle G pk inputs options)
    made.1.forM fun c => do printLine (← blobText (Wire.encodeCiphertext G c.toCiphertext))
    printLine (← blobText (Wire.encodeShuffle G made.2.toProof))
    pure 0
  | _ => throw (.argument (.commandShape "shuffle <h> <ct>..."))

/-- Whether the number of arguments, the command among them, is four and twice the count, in 64-bit
arithmetic. -/
def countFits (arguments : Nat) (n : UInt64) : Bool :=
  decide (UInt64.ofNat arguments = 4 + 2 * n)

def verifyShuffle (G : Group) (options : Shuffle.Options) (arguments : List String) :
    Run σ UInt32 := do
  match arguments with
  | h :: proof :: count :: cts =>
    let pk ← keyArgument G h
    let proof ← Wire.decodeShuffle G (← Hex.bytes proof)
    let n ← sizeArgument count
    expectArguments (countFits (cts.length + 4) n) "verify-shuffle: expected 2n ciphertexts"
    let inputs ← ciphertextsAt G cts 0 n.toNat
    let outputs ← ciphertextsAt G cts n.toNat n.toNat
    verdict (← Shuffle.verify G pk inputs outputs proof.toProof options)
  | _ =>
    throw (.argument (.commandShape "verify-shuffle <h> <proof> <n> <in_ct>... <out_ct>..."))

def partialDecryption (G : Group) (domain : Bytes) (arguments : List String) : Run σ UInt32 := do
  match arguments with
  | [share, ct] =>
    let share ← shareArgument G share
    let ct ← ciphertextArgument G ct
    let contribution ← draw (Sharing.partialDecrypt G share ct domain)
    printLine (← blobText (Wire.encodeShare G contribution))
    pure 0
  | _ => throw (.argument (.commandShape "partial <i:x_i> <ct>"))

/-- The commitments of a blob, of which there must be one. -/
def commitmentsArgument (G : Group) (text : String) : Result Sharing.Commitments := do
  let reader : Wire.Reader Sharing.Commitments := do
    let coefficients ← Wire.Reader.elements G
    Sharing.Commitments.ofList (coefficients.map some)
  reader.whole (← Hex.bytes text)

/-- The remark on a rejected contribution. -/
def rejectionText (index : UInt64) : String := "rejected: " ++ decimal index ++ "\n"

/-- Prints the value that contributions open a ciphertext to, and remarks on those rejected. -/
def combine (G : Group) (domain : Bytes) (arguments : List String) : Run σ UInt32 := do
  match arguments with
  | commitments :: ct :: shares =>
    let commitments ← commitmentsArgument G commitments
    let ct ← ciphertextArgument G ct
    let shares ← (shares.mapM fun s => do Wire.decodeShare G (← Hex.bytes s) :
      Result (List Sharing.DecryptionShare))
    let combined ← Sharing.combine G commitments ct shares domain
    combined.rejected.forM fun i => remark (rejectionText i)
    let value ← G.decodeExponential (some combined.plaintext) defaultSearchBound
    printLine (decimal value)
    pure 0
  | _ => throw (.argument (.commandShape "combine <commitments> <ct> <share>..."))

/-- Prints how often each value is held by the ciphertexts. -/
def tally (G : Group) (arguments : List String) : Run σ UInt32 := do
  match arguments with
  | x :: bound :: cts =>
    let x ← Hex.number x
    let bound ← valueArgument bound
    let plaintexts ← (cts.mapM fun ct => do G.decrypt ⟨some x⟩ (← ciphertextArgument G ct) :
      Result (List Int))
    let counts ← Tally.count G .exponential (plaintexts.map some) bound
    counts.forM fun vn => printLine (decimal vn.1 ++ " " ++ toString vn.2)
    pure 0
  | _ => throw (.argument (.commandShape "tally <x> <max> <ct>..."))

/-! ## Calls -/

def dispatch (G : Group) (options : Shuffle.Options) (name : String) (arguments : List String) :
    Run σ UInt32 :=
  match name with
  | "params" => params G
  | "keygen" => keygen G
  | "deal" => deal G arguments
  | "encrypt" => encrypt G arguments
  | "decrypt" => decrypt G arguments
  | "reencrypt" => reencrypt G options.domain arguments
  | "verify-reencryption" => verifyReencryption G options.domain arguments
  | "shuffle" => shuffle G options arguments
  | "verify-shuffle" => verifyShuffle G options arguments
  | "partial" => partialDecryption G options.domain arguments
  | "combine" => combine G options.domain arguments
  | "tally" => tally G arguments
  | _ => do
    remark ("未知模式: " ++ name ++ "\n" ++ usage)
    pure 1

def perform (arguments : List String) : Run σ UInt32 := do
  let settings ← Settings.ofArguments arguments Settings.initial
  match settings.command with
  | [] =>
    remark usage
    pure 1
  | name :: arguments =>
    let G ← Group.preset settings.preset
    dispatch G settings.options name arguments

/-- The remarks on a failure: its message, and the indices of rejected contributions. -/
def failureText (e : Error) : String :=
  let rejected := match e with
    | .insufficientShares _ _ rejected => rejected
    | _ => []
  "error: " ++ e.message ++ "\n" ++ String.join (rejected.map rejectionText)

/-- A call of the program; an argument ends at its first NUL character. -/
def call (arguments : List String) (source : σ) : Outcome :=
  let run : Run σ UInt32 := perform (arguments.map beforeNul)
  match run.run ⟨source, "", ""⟩ with
  | (.ok exit, session) => ⟨exit, session.out, session.err⟩
  | (.error e, session) => ⟨1, session.out, session.err ++ failureText e⟩

end BallotMix.Command
