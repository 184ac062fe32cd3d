import TrustedPlatform.Rsa.Oaep
import TrustedPlatform.Rsa.Pkcs1
import TrustedPlatform.Rsa.PrivateKey
import TrustedPlatform.Rsa.Pss

/-!
# Encryption and signature schemes

A scheme pads before the primitive of one half of a key is applied, and checks the padding after
the primitive of the other half. Encryption is optimal asymmetric, PKCS #1 v1.5 or without
padding; signatures are probabilistic or PKCS #1 v1.5. Other scheme numbers are refused.
-/

namespace TrustedPlatform.Rsa

variable (α : Type) [Arithmetic α]

/-- A message of at most `k` bytes, filled up with zeros on the left. -/
def encodeRaw (message : Bytes) (k : Nat) : Checked Bytes := do
  Require.maxLength "RSA raw input" message.length k
  return message.padLeft k

/-- The encryption of a message. Drawn bytes that may not be zero are drawn again up to the given
number of times. -/
def encrypt {σ : Type} [RandomSource σ] (retries : Nat) (key : PublicKey) (scheme : AlgorithmId)
    (h : Hash) (label message : Bytes) : Randomized σ Bytes := do
  let k := key.size
  let encoded ←
    if scheme = .oaep then Oaep.encode h label message k
    else if scheme = .rsaes then Pkcs1.encodeMessage retries message k
    else if scheme = .null then encodeRaw message k
    else throw (.scheme "RSA encryption")
  publicOp α key encoded

/-- The message in a ciphertext. -/
def decrypt (key : PrivateKey) (scheme : AlgorithmId) (h : Hash) (label ciphertext : Bytes) :
    Checked Bytes := do
  Require.length "RSA ciphertext" ciphertext.length key.publicKey.size
  if scheme = .oaep then
    let encoded ← privateOp α key ciphertext
    Oaep.decode h label encoded
  else if scheme = .rsaes then
    let encoded ← privateOp α key ciphertext
    Pkcs1.decodeMessage encoded
  else if scheme = .null then privateOp α key ciphertext
  else throw (.scheme "RSA decryption")

/-- A signature over a digest. -/
def sign {σ : Type} [RandomSource σ] (key : PrivateKey) (scheme : AlgorithmId) (h : Hash)
    (digest : Bytes) : Randomized σ Bytes := do
  let encoded ←
    if scheme = .rsassa then Pkcs1.encodeDigest h digest key.publicKey.size
    else if scheme = .rsapss then Pss.encode h digest key.publicKey.bits
    else throw (.scheme "RSA signing")
  privateOp α key encoded

/-- The encoded digest in a signature. A signature of the wrong length or size is not valid. -/
def recoverEncoded (key : PublicKey) (algorithm : String) (signature : Bytes) : Checked Bytes := do
  Require.signature (signature.length = key.size) algorithm
  match publicOp α key signature with
  | .ok encoded => return encoded
  | .error e => if e.isFatal then throw e else throw (.signature algorithm)

/-- Accept a signature over a digest. -/
def verify (key : PublicKey) (scheme : AlgorithmId) (h : Hash) (digest signature : Bytes) :
    Checked Unit :=
  if scheme = .rsassa then do
    let algorithm := "RSASSA-PKCS1-v1_5"
    let encoded ← recoverEncoded α key algorithm signature
    match Pkcs1.encodeDigest h digest key.size with
    | .ok expected => Require.signature (expected.ctEq encoded) algorithm
    | .error _ => throw (.signature algorithm)
  else if scheme = .rsapss then do
    let algorithm := "RSASSA-PSS"
    let encoded ← recoverEncoded α key algorithm signature
    -- the encoded digest is a byte shorter than the modulus when its bits fill whole bytes
    let lead := key.size - Pss.encodedLength key.bits
    Require.signature ((encoded.take lead).all (· == 0)) algorithm
    Pss.verify h digest (encoded.drop lead) key.bits
  else .error (.scheme "RSA verification")

end TrustedPlatform.Rsa
