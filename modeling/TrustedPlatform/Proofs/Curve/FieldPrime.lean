import TrustedPlatform.Proofs.Curve.Order

/-!
# The field primes

The numbers over which the registered curves are taken are primes. The largest of them is a Mersenne
prime; each of the others has a certificate.
-/

namespace TrustedPlatform.CurveParameters

/-- A certificate for the field prime of the 192-bit curve of the NIST recommendations. -/
def nistP192Certificate : List Lucas.Step := [
  ⟨nistP192.p, 11, [2, 59, 149309, 11393611, 108341181769254293, 288626509448065367648032903]⟩,
  ⟨288626509448065367648032903, 6, [2, 3, 19, 19, 37, 607, 5933177618131140283]⟩,
  ⟨5933177618131140283, 2, [2, 3, 3, 723127, 455827231987]⟩,
  ⟨108341181769254293, 2, [2, 2, 17, 43, 2477, 54251, 275729]⟩,
  ⟨455827231987, 2, [2, 3, 7, 43, 252396031]⟩,
  ⟨252396031, 3, [2, 3, 5, 8413201]⟩,
  ⟨11393611, 10, [2, 3, 5, 379787]⟩,
  ⟨8413201, 29, [2, 2, 2, 2, 3, 3, 3, 5, 5, 19, 41]⟩,
  ⟨723127, 3, [2, 3, 191, 631]⟩,
  ⟨379787, 2, [2, 11, 61, 283]⟩,
  ⟨275729, 3, [2, 2, 2, 2, 19, 907]⟩,
  ⟨149309, 2, [2, 2, 163, 229]⟩]

/-- A certificate for the field prime of the 224-bit curve of the NIST recommendations. -/
def nistP224Certificate : List Lucas.Step := [
  ⟨nistP224.p, 22, List.replicate 96 2 ++ [3, 5, 17, 257, 641, 65537, 274177, 6700417,
    67280421310721]⟩,
  ⟨67280421310721, 3, [2, 2, 2, 2, 2, 2, 2, 2, 5, 47, 373, 2998279]⟩,
  ⟨6700417, 5, [2, 2, 2, 2, 2, 2, 2, 3, 17449]⟩,
  ⟨2998279, 3, [2, 3, 3, 166571]⟩,
  ⟨274177, 5, [2, 2, 2, 2, 2, 2, 2, 2, 3, 3, 7, 17]⟩,
  ⟨166571, 2, [2, 5, 16657]⟩,
  ⟨65537, 3, [2, 2, 2, 2, 2, 2, 2, 2, 2, 2, 2, 2, 2, 2, 2, 2]⟩]

/-- A certificate for the field prime of the 384-bit curve of the NIST recommendations. -/
def nistP384Certificate : List Lucas.Step := [
  ⟨nistP384.p, 19, [2, 19, 67, 807145746439,
    0x23108c4e1b4108ec0ae7f9ac9f118677a6c53e44fd12fcacc07b805145240aae82349d3ce0e376778bd1]⟩,
  ⟨0x23108c4e1b4108ec0ae7f9ac9f118677a6c53e44fd12fcacc07b805145240aae82349d3ce0e376778bd1, 3,
    [2, 2, 2, 2, 11, 11, 11, 8389, 38557, 312289, 1357291859799823621, 529709925838459440593,
    12397338596863679689524759770405177749801411]⟩,
  ⟨12397338596863679689524759770405177749801411, 2, [2, 3, 5,
    413244619895455989650825325680172591660047]⟩,
  ⟨413244619895455989650825325680172591660047, 5, [2, 17, 97, 6051631,
    20705423504133292078628634597817]⟩,
  ⟨20705423504133292078628634597817, 5, [2, 2, 2, 3, 862725979338887169942859774909]⟩,
  ⟨862725979338887169942859774909, 2, [2, 2, 3, 3, 23964610537191310276190549303]⟩,
  ⟨23964610537191310276190549303, 5, [2, 336757, 35581458644053887931343]⟩,
  ⟨35581458644053887931343, 5, [2, 17, 41, 568151, 44925942675193]⟩,
  ⟨529709925838459440593, 3, [2, 2, 2, 2, 7, 181, 105957871, 246608641]⟩,
  ⟨1357291859799823621, 2, [2, 2, 3, 5, 67, 6317, 53448597593]⟩,
  ⟨44925942675193, 5, [2, 2, 2, 3, 3517, 532247449]⟩,
  ⟨807145746439, 3, [2, 3, 47, 2862218959]⟩,
  ⟨53448597593, 3, [2, 2, 2, 13, 513928823]⟩,
  ⟨2862218959, 3, [2, 3, 157, 1373, 2213]⟩,
  ⟨532247449, 7, [2, 2, 2, 3, 61, 363557]⟩,
  ⟨513928823, 5, [2, 11, 59, 599, 661]⟩,
  ⟨246608641, 19, [2, 2, 2, 2, 2, 2, 2, 2, 3, 3, 5, 21407]⟩,
  ⟨105957871, 3, [2, 3, 5, 19, 211, 881]⟩,
  ⟨6051631, 6, [2, 3, 5, 13, 59, 263]⟩,
  ⟨568151, 17, [2, 5, 5, 11, 1033]⟩,
  ⟨363557, 2, [2, 2, 97, 937]⟩,
  ⟨336757, 2, [2, 2, 3, 7, 19, 211]⟩,
  ⟨312289, 14, [2, 2, 2, 2, 2, 3, 3253]⟩]

/-- A certificate for the field prime of the Barreto-Naehrig curve. -/
def bnP256Certificate : List Lucas.Step := [
  ⟨bnP256.p, 2, [2, 3, 7, 7, 29, 67, 73, 397, 2236187, 24818737, 6192533153, 81298681439,
    2553430781211719, 98035115546173963]⟩,
  ⟨98035115546173963, 2, [2, 3, 13, 173, 7265089339423]⟩,
  ⟨2553430781211719, 13, [2, 1449691, 880681049]⟩,
  ⟨7265089339423, 5, [2, 3, 617, 9629, 203809]⟩,
  ⟨81298681439, 19, [2, 13, 83, 37673161]⟩,
  ⟨6192533153, 3, [2, 2, 2, 2, 2, 13, 13, 17, 193, 349]⟩,
  ⟨880681049, 3, [2, 2, 2, 13, 29, 107, 2729]⟩,
  ⟨37673161, 13, [2, 2, 2, 3, 5, 7, 7, 43, 149]⟩,
  ⟨24818737, 5, [2, 2, 2, 2, 3, 131, 3947]⟩,
  ⟨2236187, 2, [2, 19, 83, 709]⟩,
  ⟨1449691, 2, [2, 3, 5, 11, 23, 191]⟩,
  ⟨203809, 13, [2, 2, 2, 2, 2, 3, 11, 193]⟩]

/-- A certificate for the field prime of the curve of the SM2 recommendations. -/
def sm2P256Certificate : List Lucas.Step := [
  ⟨sm2P256.p, 13, [2, 43, 30223, 348253387243, 4641351449027, 417514796639753,
    66013261729388519804782124120027]⟩,
  ⟨66013261729388519804782124120027, 2, [2, 13, 1213, 71209, 6158099, 4773264379806847]⟩,
  ⟨4773264379806847, 3, [2, 3, 7, 11, 823, 34511, 363761]⟩,
  ⟨417514796639753, 3, [2, 2, 2, 7, 367, 2473, 8214737]⟩,
  ⟨4641351449027, 2, [2, 769, 3017783777]⟩,
  ⟨348253387243, 3, [2, 3, 61, 5303, 179429]⟩,
  ⟨3017783777, 3, [2, 2, 2, 2, 2, 7, 7, 337, 5711]⟩,
  ⟨8214737, 3, [2, 2, 2, 2, 67, 79, 97]⟩,
  ⟨6158099, 2, [2, 3079049]⟩,
  ⟨3079049, 3, [2, 2, 2, 7, 54983]⟩,
  ⟨363761, 3, [2, 2, 2, 2, 5, 4547]⟩,
  ⟨179429, 2, [2, 2, 31, 1447]⟩,
  ⟨71209, 7, [2, 2, 2, 3, 3, 23, 43]⟩]

/-- The number over which a registered curve is taken is a prime. -/
theorem prime_of_mem : ∀ d ∈ all, d.p.Prime := by
  have h192 : Lucas.certifies nistP192Certificate = true := by decide +kernel
  have h224 : Lucas.certifies nistP224Certificate = true := by decide +kernel
  have h384 : Lucas.certifies nistP384Certificate = true := by decide +kernel
  have hbn : Lucas.certifies bnP256Certificate = true := by decide +kernel
  have hsm2 : Lucas.certifies sm2P256Certificate = true := by decide +kernel
  intro d hd
  simp only [all, List.mem_cons, List.not_mem_nil, or_false] at hd
  rcases hd with rfl | rfl | rfl | rfl | rfl | rfl | rfl
  · exact Lucas.prime_of_certifies h192 _ (.head _)
  · exact Lucas.prime_of_certifies h224 _ (.head _)
  · exact primes_nistP256.1
  · exact Lucas.prime_of_certifies h384 _ (.head _)
  · exact prime_nistP521
  · exact Lucas.prime_of_certifies hbn _ (.head _)
  · exact Lucas.prime_of_certifies hsm2 _ (.head _)

end TrustedPlatform.CurveParameters
