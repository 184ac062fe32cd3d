import TrustedPlatform.Proofs.Arithmetic.Agreement
import TrustedPlatform.Proofs.Attestation.AllOrNothing
import TrustedPlatform.Proofs.Cipher.Encryption
import TrustedPlatform.Proofs.Curve.RandomScalar
import TrustedPlatform.Proofs.Curve.Validation
import TrustedPlatform.Proofs.Engine.Containment
import TrustedPlatform.Proofs.Engine.Reset
import TrustedPlatform.Proofs.Exchange.Agreement
import TrustedPlatform.Proofs.Integer.Encoding
import TrustedPlatform.Proofs.Integer.InPlace
import TrustedPlatform.Proofs.Random.Accounting
import TrustedPlatform.Proofs.Random.Conditioning
import TrustedPlatform.Proofs.Random.ContinuousTest
import TrustedPlatform.Proofs.Random.Derived
import TrustedPlatform.Proofs.Random.Lifecycle
import TrustedPlatform.Proofs.Rsa.Corruption
import TrustedPlatform.Proofs.Rsa.Generation
import TrustedPlatform.Proofs.Rsa.Masking
import TrustedPlatform.Proofs.Rsa.Pkcs1
import TrustedPlatform.Proofs.Rsa.Recoverable
import TrustedPlatform.Proofs.Signature.Ecdsa
import TrustedPlatform.Proofs.Signature.Schnorr
import TrustedPlatform.Proofs.Signature.Sm2
import TrustedPlatform.Proofs.Wire.Codec
import TrustedPlatform.Random.Seeded
import TrustedPlatform.Secret
