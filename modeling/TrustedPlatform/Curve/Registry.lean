import TrustedPlatform.Algorithm
import TrustedPlatform.Failure

/-!
# Registered curves

A curve `y^2 = x^3 + a * x + b` over a prime field is described by its field prime `p`, its
coefficients, a generator and the generator's order `n`. `CurveParameters.lookup?` finds the
description with a registry number and refuses all other numbers.
-/

namespace TrustedPlatform

/-- The description of a curve and a generator. -/
structure CurveParameters where
  /-- The number in the curve registry. -/
  id : CurveId
  /-- The name of the curve. -/
  name : String
  /-- The number of bits in the field prime. -/
  fieldBits : Nat
  /-- The field prime. -/
  p : Nat
  /-- The coefficient of `x`, reduced modulo `p`. -/
  a : Nat
  /-- The constant coefficient. -/
  b : Nat
  /-- The order of the generator. -/
  n : Nat
  /-- The cofactor of the generator's group. -/
  h : Nat
  /-- The first coordinate of the generator. -/
  gx : Nat
  /-- The second coordinate of the generator. -/
  gy : Nat

namespace CurveParameters

/-- The 192-bit curve over a prime field of the NIST recommendations. -/
def nistP192 : CurveParameters where
  id := 0x0001
  name := "NIST P-192"
  fieldBits := 192
  p := 0xfffffffffffffffffffffffffffffffeffffffffffffffff
  a := 0xfffffffffffffffffffffffffffffffefffffffffffffffc
  b := 0x64210519e59c80e70fa7e9ab72243049feb8deecc146b9b1
  n := 0xffffffffffffffffffffffff99def836146bc9b1b4d22831
  h := 1
  gx := 0x188da80eb03090f67cbf20eb43a18800f4ff0afd82ff1012
  gy := 0x7192b95ffc8da78631011ed6b24cdd573f977a11e794811

/-- The 224-bit curve over a prime field of the NIST recommendations. -/
def nistP224 : CurveParameters where
  id := 0x0002
  name := "NIST P-224"
  fieldBits := 224
  p := 0xffffffffffffffffffffffffffffffff000000000000000000000001
  a := 0xfffffffffffffffffffffffffffffffefffffffffffffffffffffffe
  b := 0xb4050a850c04b3abf54132565044b0b7d7bfd8ba270b39432355ffb4
  n := 0xffffffffffffffffffffffffffff16a2e0b8f03e13dd29455c5c2a3d
  h := 1
  gx := 0xb70e0cbd6bb4bf7f321390b94a03c1d356c21122343280d6115c1d21
  gy := 0xbd376388b5f723fb4c22dfe6cd4375a05a07476444d5819985007e34

/-- The 256-bit curve over a prime field of the NIST recommendations. -/
def nistP256 : CurveParameters where
  id := 0x0003
  name := "NIST P-256"
  fieldBits := 256
  p := 0xffffffff00000001000000000000000000000000ffffffffffffffffffffffff
  a := 0xffffffff00000001000000000000000000000000fffffffffffffffffffffffc
  b := 0x5ac635d8aa3a93e7b3ebbd55769886bc651d06b0cc53b0f63bce3c3e27d2604b
  n := 0xffffffff00000000ffffffffffffffffbce6faada7179e84f3b9cac2fc632551
  h := 1
  gx := 0x6b17d1f2e12c4247f8bce6e563a440f277037d812deb33a0f4a13945d898c296
  gy := 0x4fe342e2fe1a7f9b8ee7eb4a7c0f9e162bce33576b315ececbb6406837bf51f5

/-- The 384-bit curve over a prime field of the NIST recommendations. -/
def nistP384 : CurveParameters where
  id := 0x0004
  name := "NIST P-384"
  fieldBits := 384
  p :=
    0xfffffffffffffffffffffffffffffffffffffffffffffffffffffffffffffffeffffffff0000000000000000ffffffff
  a :=
    0xfffffffffffffffffffffffffffffffffffffffffffffffffffffffffffffffeffffffff0000000000000000fffffffc
  b :=
    0xb3312fa7e23ee7e4988e056be3f82d19181d9c6efe8141120314088f5013875ac656398d8a2ed19d2a85c8edd3ec2aef
  n :=
    0xffffffffffffffffffffffffffffffffffffffffffffffffc7634d81f4372ddf581a0db248b0a77aecec196accc52973
  h := 1
  gx :=
    0xaa87ca22be8b05378eb1c71ef320ad746e1d3b628ba79b9859f741e082542a385502f25dbf55296c3a545e3872760ab7
  gy :=
    0x3617de4a96262c6f5d9e98bf9292dc29f8f41dbd289a147ce9da3113b5f0b8c00a60b1ce1d7e819d7a431d7c90ea0e5f

/-- The 521-bit curve over a prime field of the NIST recommendations. -/
def nistP521 : CurveParameters where
  id := 0x0005
  name := "NIST P-521"
  fieldBits := 521
  p :=
    0x1ffffffffffffffffffffffffffffffffffffffffffffffffffffffffffffffffffffffffffffffffffffffffffffffffffffffffffffffffffffffffffffffffff
  a :=
    0x1fffffffffffffffffffffffffffffffffffffffffffffffffffffffffffffffffffffffffffffffffffffffffffffffffffffffffffffffffffffffffffffffffc
  b :=
    0x51953eb9618e1c9a1f929a21a0b68540eea2da725b99b315f3b8b489918ef109e156193951ec7e937b1652c0bd3bb1bf073573df883d2c34f1ef451fd46b503f00
  n :=
    0x1fffffffffffffffffffffffffffffffffffffffffffffffffffffffffffffffffa51868783bf2f966b7fcc0148f709a5d03bb5c9b8899c47aebb6fb71e91386409
  h := 1
  gx :=
    0xc6858e06b70404e9cd9e3ecb662395b4429c648139053fb521f828af606b4d3dbaa14b5e77efe75928fe1dc127a2ffa8de3348b3c1856a429bf97e7e31c2e5bd66
  gy :=
    0x11839296a789a3bc0045c8a5fb42c7d1bd998f54449579b446817afbd17273e662c97ee72995ef42640c550b9013fad0761353c7086a272c24088be94769fd16650

/-- The 256-bit Barreto-Naehrig curve. -/
def bnP256 : CurveParameters where
  id := 0x0010
  name := "BN P-256"
  fieldBits := 256
  p := 0xfffffffffffcf0cd46e5f25eee71a49f0cdc65fb12980a82d3292ddbaed33013
  a := 0
  b := 3
  n := 0xfffffffffffcf0cd46e5f25eee71a49e0cdc65fb1299921af62d536cd10b500d
  h := 1
  gx := 1
  gy := 2

/-- The 256-bit curve of the SM2 recommendations. -/
def sm2P256 : CurveParameters where
  id := 0x0020
  name := "SM2 P-256"
  fieldBits := 256
  p := 0xfffffffeffffffffffffffffffffffffffffffff00000000ffffffffffffffff
  a := 0xfffffffeffffffffffffffffffffffffffffffff00000000fffffffffffffffc
  b := 0x28e9fa9e9d9f5e344d5a9e4bcf6509a7f39789f515ab8f92ddbcbd414d940e93
  n := 0xfffffffeffffffffffffffffffffffff7203df6b21c6052b53bbf40939d54123
  h := 1
  gx := 0x32c4ae2c1f1981195f9904466a39c9948fe30bbff2660be1715a4589334c74c7
  gy := 0xbc3736a2f4f6779c59bdcee36b692153d0a9877cc62a474002df32e52139f0a0

/-- Every registered curve. -/
def all : List CurveParameters :=
  [nistP192, nistP224, nistP256, nistP384, nistP521, bnP256, sm2P256]

/-- The curve with a registry number. -/
def lookup? (id : CurveId) : Checked CurveParameters :=
  match all.find? fun c => c.id == id with
  | some c => .ok c
  | none => .error (.unknownCurve id)

end CurveParameters

end TrustedPlatform
