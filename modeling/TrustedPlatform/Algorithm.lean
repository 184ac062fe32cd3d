/-!
# Algorithm, scheme and curve identifiers

Identifiers are the 16-bit numbers of the TPM registries. A scheme or curve number that a caller
supplies is carried unchanged and refused where it is used; `HashAlgorithm` lists the hash
functions that the library computes, with their sizes.
-/

namespace TrustedPlatform

/-- A number from the algorithm registry. -/
abbrev AlgorithmId := UInt16

namespace AlgorithmId

/-- No padding. -/
def null : AlgorithmId := 0x0010

/-- Signatures with PKCS #1 v1.5 padding. -/
def rsassa : AlgorithmId := 0x0014

/-- Encryption with PKCS #1 v1.5 padding. -/
def rsaes : AlgorithmId := 0x0015

/-- Signatures with probabilistic padding. -/
def rsapss : AlgorithmId := 0x0016

/-- Encryption with optimal asymmetric padding. -/
def oaep : AlgorithmId := 0x0017

/-- The elliptic curve digital signature algorithm. -/
def ecdsa : AlgorithmId := 0x0018

/-- Elliptic curve Diffie-Hellman key agreement. -/
def ecdh : AlgorithmId := 0x0019

/-- Elliptic curve direct anonymous attestation. -/
def ecdaa : AlgorithmId := 0x001A

/-- SM2 signatures and key exchange. -/
def sm2 : AlgorithmId := 0x001B

/-- Elliptic curve Schnorr signatures. -/
def ecSchnorr : AlgorithmId := 0x001C

/-- Elliptic curve MQV key agreement. -/
def ecmqv : AlgorithmId := 0x001D

end AlgorithmId

/-- A number from the curve registry. -/
abbrev CurveId := UInt16

/-- The hash functions that the library computes. -/
inductive HashAlgorithm where
  | sha1
  | sha256
  | sha384
  | sha512
  deriving DecidableEq, Repr, Inhabited

namespace HashAlgorithm

/-- Every hash function, in the order of the registry. -/
def all : List HashAlgorithm := [sha1, sha256, sha384, sha512]

/-- The name of a hash function. -/
def name : HashAlgorithm → String
  | sha1 => "sha1"
  | sha256 => "sha256"
  | sha384 => "sha384"
  | sha512 => "sha512"

/-- The capitalized name of a hash function. -/
def title : HashAlgorithm → String
  | sha1 => "Sha1"
  | sha256 => "Sha256"
  | sha384 => "Sha384"
  | sha512 => "Sha512"

/-- The number of output bytes. -/
def digestSize : HashAlgorithm → Nat
  | sha1 => 20
  | sha256 => 32
  | sha384 => 48
  | sha512 => 64

/-- The number of bytes in one block of input. -/
def blockSize : HashAlgorithm → Nat
  | sha1 => 64
  | sha256 => 64
  | sha384 => 128
  | sha512 => 128

/-- The number in the algorithm registry. -/
def id : HashAlgorithm → AlgorithmId
  | sha1 => 0x0004
  | sha256 => 0x000B
  | sha384 => 0x000C
  | sha512 => 0x000D

/-- The hash function with a registry number. -/
def ofId? (n : AlgorithmId) : Option HashAlgorithm :=
  all.find? fun h => h.id == n

end HashAlgorithm

end TrustedPlatform
