import TrustedPlatform.Proofs.Random.Lockstep

/-!
# Curves in a lawful arithmetic

The curve operations are composed of arithmetic ones modulo the field prime, and the numbers of the
registered curves and of the points on the wire are small. In a lawful arithmetic the operations
therefore refine those over the exact numbers with no condition on the room: on points with the same
coordinates they give points with the same coordinates, or are refused alike. So do the operations on
scalars and digests that the schemes over a curve share; key pairs are drawn in lockstep.
-/

namespace TrustedPlatform

open LawfulArithmetic

variable {α : Type} [Arithmetic α] [LawfulArithmetic α]

/-- The numbers of a triple denote those of an exact one. -/
structure Jacobian.Matches (P : Jacobian α) (P' : Jacobian Nat) : Prop where
  x : Denotes P.x P'.x
  y : Denotes P.y P'.y
  z : Denotes P.z P'.z

/-- The small numbers of a triple denote those of an exact one. -/
structure SmallPoint (P : Jacobian α) (P' : Jacobian Nat) : Prop where
  x : Small P.x P'.x
  y : Small P.y P'.y
  z : Small P.z P'.z

/-- The small numbers of a curve denote those of an exact one. -/
structure SmallCurve (c : Curve α) (c' : Curve Nat) : Prop where
  p : Small c.p c'.p
  a : Small c.a c'.a
  b : Small c.b c'.b
  n : Small c.n c'.n
  h : Small c.h c'.h
  g : SmallPoint c.g c'.g
  fieldBytes : c.fieldBytes = c'.fieldBytes
  orderBits : c.orderBits = c'.orderBits
  orderBits_le : c'.orderBits ≤ 528

namespace SmallPoint

variable {P Q : Jacobian α} {P' Q' : Jacobian Nat}

/-- The numbers of a small point denote those of the exact one. -/
theorem denotes (h : SmallPoint P P') : P.Matches P' :=
  ⟨h.x.denotes, h.y.denotes, h.z.denotes⟩

/-- Infinity stands for infinity. -/
theorem infinity : SmallPoint (Jacobian.infinity : Jacobian α) Jacobian.infinity :=
  ⟨.ofWord 0, .ofWord 0, .ofWord 0⟩

/-- An affine point stands for the one with the same coordinates. -/
theorem affine {x y : α} {x' y' : Nat} (hx : Small x x') (hy : Small y y') :
    SmallPoint (Jacobian.affine x y) (Jacobian.affine x' y') :=
  ⟨hx, hy, .ofWord 1⟩

/-- A point that arrives on the wire is small. -/
theorem ofWire (q : Wire.Point) :
    SmallPoint (Jacobian.ofWire q : Jacobian α) (Jacobian.ofWire q) :=
  affine (.ofBytes (q.x.length_le.trans (by decide))) (.ofBytes (q.y.length_le.trans (by decide)))

/-- Infinity is recognized alike. -/
theorem isInfinity_eq (h : SmallPoint P P') : P.isInfinity = P'.isInfinity :=
  h.z.denotes.isZero_eq

/-- Equal points are recognized alike. -/
theorem eq_eq (h : SmallPoint P P') (h' : SmallPoint Q Q') : P.eq Q = P'.eq Q' := by
  rw [Jacobian.eq, Jacobian.eq, h.x.denotes.eq_eq h'.x.denotes, h.y.denotes.eq_eq h'.y.denotes,
    h.z.denotes.eq_eq h'.z.denotes]

end SmallPoint

namespace Curve

/-- A number of a description denotes itself. -/
theorem denotes_number (n : Nat) :
    Denotes (Arithmetic.ofBytes (Bytes.ofNat n) : α) n := by
  have h := LawfulArithmetic.ofBytes (α := α) (Bytes.ofNat n)
  rwa [Bytes.toNat_ofNat] at h

end Curve

namespace CurveParameters

/-- The registry returns registered curves only. -/
theorem mem_of_lookup? {id : CurveId} {d : CurveParameters} (h : lookup? id = .ok d) : d ∈ all := by
  rw [lookup?] at h
  cases hfind : all.find? fun c => c.id == id with
  | none =>
      rw [hfind] at h
      cases h
  | some c =>
      rw [hfind] at h
      cases h
      exact List.mem_of_find?_eq_some hfind

/-- The numbers of the registered curves take no more bytes than the longest coordinate. -/
theorem widthOf_number_le : ∀ d ∈ all, ∀ n ∈ [d.p, d.a, d.b, d.n, d.h, d.gx, d.gy],
    Bytes.widthOf n ≤ Wire.maxCoordinateBytes := by
  decide +kernel

/-- The numbers of the registered curves have at most 528 bits. -/
theorem size_number_le {d : CurveParameters} (hd : d ∈ all) {n : Nat}
    (hn : n ∈ [d.p, d.a, d.b, d.n, d.h, d.gx, d.gy]) : n.size ≤ 528 := by
  have hwidth := widthOf_number_le d hd n hn
  rw [Bytes.widthOf_eq, Wire.maxCoordinateBytes] at hwidth
  omega

variable {d : CurveParameters}

/-- A registered curve, loaded, is small. -/
theorem smallCurve (hd : d ∈ all) :
    SmallCurve (Curve.ofParameters d : Curve α) (Curve.ofParameters d) := by
  have hnumber {n : Nat} (hn : n ∈ [d.p, d.a, d.b, d.n, d.h, d.gx, d.gy]) :
      Small (Arithmetic.ofBytes (Bytes.ofNat n) : α) (Arithmetic.ofBytes (Bytes.ofNat n)) := by
    refine .of_lt_two_pow 528 (LawfulArithmetic.ofBytes _) ?_ (by decide)
    show Bytes.toNat (Bytes.ofNat n) < _
    rw [Bytes.toNat_ofNat, ← Nat.size_le]
    exact size_number_le hd hn
  have horder : (Curve.ofParameters d : Curve Nat).orderBits = d.n.size :=
    LawfulArithmetic.bitLength (Curve.denotes_number d.n)
  refine ⟨hnumber ?_, hnumber ?_, hnumber ?_, hnumber ?_, hnumber ?_,
    ⟨hnumber ?_, hnumber ?_, .ofWord 1⟩, rfl, ?_, ?_⟩
  case refine_8 =>
    rw [horder]
    exact LawfulArithmetic.bitLength (Curve.denotes_number d.n)
  case refine_9 =>
    rw [horder]
    exact size_number_le hd (by simp)
  all_goals simp

end CurveParameters

/-- The same registry numbers load curves that stand for each other. -/
theorem Curve.load_refines (id : CurveId) :
    Refines True SmallCurve (load α id) (load Nat id) := by
  unfold load
  cases hlookup : CurveParameters.lookup? id with
  | ok d => exact .ok (CurveParameters.smallCurve (CurveParameters.mem_of_lookup? hlookup))
  | error e => exact .refused e

/-! ### Points that the caller answers for -/

/-- What becomes of a check of a point for which, under SM2, the caller answers: there a point off
the curve is fatal. -/
def answeredFor {β : Type} (scheme : AlgorithmId) : Checked β → Checked β
  | .error .pointNotOnCurve =>
      if scheme = .sm2 then .error (.fatal .parameter) else .error .pointNotOnCurve
  | outcome => outcome

/-- Other faults stay as they are. -/
theorem answeredFor_of_ne {β : Type} (scheme : AlgorithmId) {e : Fault}
    (h : e ≠ .pointNotOnCurve) :
    answeredFor scheme (.error e : Checked β) = .error e := by
  cases e with
  | pointNotOnCurve => exact absurd rfl h
  | _ => rfl

/-- Checks that are alike stay so. -/
theorem Refines.answeredFor {β γ : Type} {R : β → γ → Prop} {x : Checked β} {y : Checked γ}
    (h : Refines True R x y) (scheme : AlgorithmId) :
    Refines True R (answeredFor scheme x) (answeredFor scheme y) := by
  cases h with
  | ok h => exact .ok h
  | exhausted h => exact absurd trivial h
  | @error e e' halike =>
      by_cases he : e = .pointNotOnCurve
      · subst he
        cases halike.eq_pointNotOnCurve
        exact .ite Iff.rfl (fun _ => .refused _) fun _ => .refused _
      · have he' : e' ≠ .pointNotOnCurve := by
          rintro rfl
          exact he halike.symm.eq_pointNotOnCurve
        rw [answeredFor_of_ne scheme he, answeredFor_of_ne scheme he']
        exact .error halike

namespace SmallCurve

variable {c : Curve α} {c' : Curve Nat} {P Q : Jacobian α} {P' Q' : Jacobian Nat}
variable {k l : α} {m n : Nat}

/-! ### The group law -/

/-- Doubling. -/
theorem double (hc : SmallCurve c c') (hP : SmallPoint P P') :
    Refines True SmallPoint (c.double P) (c'.double P') := by
  rw [Curve.double, Curve.double, hP.isInfinity_eq]
  have hm := hc.p
  refine .ite Iff.rfl (fun _ => .ok .infinity) fun _ => ?_
  refine (hP.y.reduce hm).bind fun y y' hy => ?_
  refine .ite (by rw [hy.denotes.isZero_eq]) (fun _ => .ok .infinity) fun _ => ?_
  refine (hP.y.modMul hP.y hm).bind fun y2 _ hy2 => ?_
  refine (hP.x.modMul hy2 hm).bind fun xy2 _ hxy2 => ?_
  refine (Small.modMul (.ofWord 4) hxy2 hm).bind fun s _ hs => ?_
  refine (hP.x.modMul hP.x hm).bind fun x2 _ hx2 => ?_
  refine (hP.z.modMul hP.z hm).bind fun z2 _ hz2 => ?_
  refine (hz2.modMul hz2 hm).bind fun z4 _ hz4 => ?_
  refine (Small.modMul (.ofWord 3) hx2 hm).bind fun threeX2 _ hthreeX2 => ?_
  refine (hc.a.modMul hz4 hm).bind fun az4 _ haz4 => ?_
  refine (hthreeX2.modAdd haz4 hm).bind fun slope _ hslope => ?_
  refine (hslope.modMul hslope hm).bind fun slope2 _ hslope2 => ?_
  refine (hs.modAdd hs hm).bind fun twoS _ htwoS => ?_
  refine (hslope2.modSub htwoS hm).bind fun x3 _ hx3 => ?_
  refine (hy2.modMul hy2 hm).bind fun y4 _ hy4 => ?_
  refine (hs.modSub hx3 hm).bind fun sx3 _ hsx3 => ?_
  refine (hslope.modMul hsx3 hm).bind fun rise _ hrise => ?_
  refine (Small.modMul (.ofWord 8) hy4 hm).bind fun eightY4 _ heightY4 => ?_
  refine (hrise.modSub heightY4 hm).bind fun y3 _ hy3 => ?_
  refine (hP.y.modAdd hP.y hm).bind fun twoY _ htwoY => ?_
  refine (htwoY.modMul hP.z hm).bind fun z3 _ hz3 => ?_
  exact .ok ⟨hx3, hy3, hz3⟩

/-- Addition. -/
theorem add (hc : SmallCurve c c') (hP : SmallPoint P P') (hQ : SmallPoint Q Q') :
    Refines True SmallPoint (c.add P Q) (c'.add P' Q') := by
  rw [Curve.add, Curve.add, hP.isInfinity_eq, hQ.isInfinity_eq]
  have hm := hc.p
  refine .ite Iff.rfl (fun _ => .ok hQ) fun _ => ?_
  refine .ite Iff.rfl (fun _ => .ok hP) fun _ => ?_
  refine (hP.z.modMul hP.z hm).bind fun z1z1 _ hz1z1 => ?_
  refine (hQ.z.modMul hQ.z hm).bind fun z2z2 _ hz2z2 => ?_
  refine (hP.x.modMul hz2z2 hm).bind fun u1 u1' hu1 => ?_
  refine (hQ.x.modMul hz1z1 hm).bind fun u2 u2' hu2 => ?_
  refine (hQ.z.modMul hz2z2 hm).bind fun z2z2z2 _ hz2z2z2 => ?_
  refine (hP.y.modMul hz2z2z2 hm).bind fun s1 s1' hs1 => ?_
  refine (hP.z.modMul hz1z1 hm).bind fun z1z1z1 _ hz1z1z1 => ?_
  refine (hQ.y.modMul hz1z1z1 hm).bind fun s2 s2' hs2 => ?_
  refine .ite (by rw [hu1.denotes.eq_eq hu2.denotes]) (fun _ => ?_) fun _ => ?_
  · refine .ite (by rw [hs1.denotes.eq_eq hs2.denotes]) (fun _ => hc.double hP) fun _ => ?_
    exact .ok .infinity
  · refine (hu2.modSub hu1 hm).bind fun h _ hh => ?_
    refine (hs2.modSub hs1 hm).bind fun r _ hr => ?_
    refine (hh.modMul hh hm).bind fun h2 _ hh2 => ?_
    refine (hh.modMul hh2 hm).bind fun h3 _ hh3 => ?_
    refine (hu1.modMul hh2 hm).bind fun u1h2 _ hu1h2 => ?_
    refine (hr.modMul hr hm).bind fun r2 _ hr2 => ?_
    refine (hr2.modSub hh3 hm).bind fun r2h3 _ hr2h3 => ?_
    refine (hu1h2.modAdd hu1h2 hm).bind fun twoU1h2 _ htwoU1h2 => ?_
    refine (hr2h3.modSub htwoU1h2 hm).bind fun x3 _ hx3 => ?_
    refine (hu1h2.modSub hx3 hm).bind fun run _ hrun => ?_
    refine (hr.modMul hrun hm).bind fun rise _ hrise => ?_
    refine (hs1.modMul hh3 hm).bind fun s1h3 _ hs1h3 => ?_
    refine (hrise.modSub hs1h3 hm).bind fun y3 _ hy3 => ?_
    refine (hP.z.modMul hQ.z hm).bind fun zz _ hzz => ?_
    refine (hh.modMul hzz hm).bind fun z3 _ hz3 => ?_
    exact .ok ⟨hx3, hy3, hz3⟩

/-- The ladder, whatever the two points are that it starts with. -/
theorem ladder (hc : SmallCurve c c') (hk : Denotes k n) (count : Nat)
    {P Q : Jacobian α} {P' Q' : Jacobian Nat} (hP : SmallPoint P P')
    (hQ : SmallPoint Q Q') :
    Refines True SmallPoint (c.ladder k count P Q) (c'.ladder n count P' Q') := by
  induction count generalizing P Q P' Q' with
  | zero => exact .ok hP
  | succ i ih =>
      rw [Curve.ladder, Curve.ladder]
      refine (hc.add hP hQ).bind fun sum _ hsum => ?_
      refine .ite (by rw [hk.testBit_eq]) (fun _ => ?_) fun _ => ?_
      · exact (hc.double hQ).bind fun twice _ htwice => ih hsum htwice
      · exact (hc.double hP).bind fun twice _ htwice => ih htwice hsum

/-- Scalar multiplication. -/
theorem scalarMul (hc : SmallCurve c c') (hk : Denotes k n)
    (hP : SmallPoint P P') :
    Refines True SmallPoint (c.scalarMul k P) (c'.scalarMul n P') := by
  rw [Curve.scalarMul, Curve.scalarMul, hc.orderBits, hk.bitLength_eq]
  exact hc.ladder hk _ .infinity hP

/-- Normalization. -/
theorem normalize (hc : SmallCurve c c') (hP : SmallPoint P P') :
    Refines True SmallPoint (c.normalize P) (c'.normalize P') := by
  rw [Curve.normalize, Curve.normalize, hP.isInfinity_eq]
  have hm := hc.p
  refine .ite Iff.rfl (fun _ => .ok .infinity) fun _ => ?_
  refine .ite (by rw [hP.z.denotes.eqWord_eq]) (fun _ => ?_) fun _ => ?_
  · refine (hP.x.reduce hm).bind fun x _ hx => ?_
    refine (hP.y.reduce hm).bind fun y _ hy => ?_
    exact .ok (.affine hx hy)
  · refine (hP.z.modInverse hm).bind fun o o' ho => ?_
    cases ho with
    | none => exact .refused _
    | some hzinv =>
        refine (hzinv.modMul hzinv hm).bind fun zinv2 _ hzinv2 => ?_
        refine (hzinv2.modMul hzinv hm).bind fun zinv3 _ hzinv3 => ?_
        refine (hP.x.modMul hzinv2 hm).bind fun x _ hx => ?_
        refine (hP.y.modMul hzinv3 hm).bind fun y _ hy => ?_
        exact .ok (.affine hx hy)

/-- Normalized scalar multiplication. -/
theorem mul (hc : SmallCurve c c') (hk : Denotes k n)
    (hP : SmallPoint P P') : Refines True SmallPoint (c.mul k P) (c'.mul n P') :=
  (hc.scalarMul hk hP).bind fun _ _ hR => hc.normalize hR

/-- The sum of normalized multiples. -/
theorem mul2 (hc : SmallCurve c c') (hk : Denotes k n) (hP : SmallPoint P P') (hl : Denotes l m)
    (hQ : SmallPoint Q Q') : Refines True SmallPoint (c.mul2 k P l Q) (c'.mul2 n P' m Q') := by
  refine (hc.scalarMul hk hP).bind fun up _ hup => ?_
  refine (hc.scalarMul hl hQ).bind fun vq _ hvq => ?_
  exact (hc.add hup hvq).bind fun _ _ hsum => hc.normalize hsum

/-- The normalized sum. -/
theorem addNormalized (hc : SmallCurve c c') (hP : SmallPoint P P') (hQ : SmallPoint Q Q') :
    Refines True SmallPoint (c.addNormalized P Q) (c'.addNormalized P' Q') :=
  (hc.add hP hQ).bind fun _ _ hsum => hc.normalize hsum

/-- The equation of the curve, for a point with coordinates of any size unless it has to be
normalized first. -/
theorem contains_of (hc : SmallCurve c c') (hP : P.Matches P')
    (hsmall : Arithmetic.eqWord P'.z 1 = false → SmallPoint P P') :
    Refines True Eq (c.contains P) (c'.contains P') := by
  rw [Curve.contains, Curve.contains, Jacobian.isInfinity, Jacobian.isInfinity, hP.z.isZero_eq]
  have hm := hc.p
  have hequation {Q : Jacobian α} {Q' : Jacobian Nat} (hQ : Q.Matches Q') :
      Refines True Eq
        (if (!Arithmetic.lt Q.x c.p || !Arithmetic.lt Q.y c.p) = true then pure false else do
          let lhs ← Arithmetic.modMul Q.y Q.y c.p
          let x2 ← Arithmetic.modMul Q.x Q.x c.p
          let x3 ← Arithmetic.modMul x2 Q.x c.p
          let ax ← Arithmetic.modMul c.a Q.x c.p
          let x3ax ← Arithmetic.modAdd x3 ax c.p
          let rhs ← Arithmetic.modAdd x3ax c.b c.p
          return Arithmetic.eq lhs rhs)
        (if (!Arithmetic.lt Q'.x c'.p || !Arithmetic.lt Q'.y c'.p) = true then pure false else do
          let lhs ← Arithmetic.modMul Q'.y Q'.y c'.p
          let x2 ← Arithmetic.modMul Q'.x Q'.x c'.p
          let x3 ← Arithmetic.modMul x2 Q'.x c'.p
          let ax ← Arithmetic.modMul c'.a Q'.x c'.p
          let x3ax ← Arithmetic.modAdd x3 ax c'.p
          let rhs ← Arithmetic.modAdd x3ax c'.b c'.p
          return Arithmetic.eq lhs rhs) := by
    refine .ite (by rw [hQ.x.lt_eq hm.denotes, hQ.y.lt_eq hm.denotes]) (fun _ => .ok rfl)
      fun hreduced => ?_
    -- what is not reduced was refused, so that the coordinates are small from here on
    rw [Bool.or_eq_true, not_or, Bool.not_eq_true', Bool.not_eq_true', Bool.not_eq_false,
      Bool.not_eq_false, exact_lt_iff, exact_lt_iff] at hreduced
    have hx : Small Q.x Q'.x := .of_le hQ.x hreduced.1.le hm
    have hy : Small Q.y Q'.y := .of_le hQ.y hreduced.2.le hm
    refine (hy.modMul hy hm).bind fun lhs _ hlhs => ?_
    refine (hx.modMul hx hm).bind fun x2 _ hx2 => ?_
    refine (hx2.modMul hx hm).bind fun x3 _ hx3 => ?_
    refine (hc.a.modMul hx hm).bind fun ax _ hax => ?_
    refine (hx3.modAdd hax hm).bind fun x3ax _ hx3ax => ?_
    refine (hx3ax.modAdd hc.b hm).bind fun rhs _ hrhs => ?_
    exact .ok (hlhs.denotes.eq_eq hrhs.denotes)
  refine .ite Iff.rfl (fun _ => .ok rfl) fun _ => ?_
  refine .ite (by rw [hP.z.eqWord_eq]) (fun _ => hequation hP) fun hz => ?_
  refine (hc.normalize (hsmall (Bool.eq_false_of_not_eq_true hz))).bind fun _ _ hQ => ?_
  exact hequation hQ.denotes

/-- The equation of the curve, for a small point. -/
theorem contains (hc : SmallCurve c c') (hP : SmallPoint P P') :
    Refines True Eq (c.contains P) (c'.contains P') :=
  hc.contains_of hP.denotes fun _ => hP

/-- The equation of the curve, for an affine point with coordinates of any size; those that satisfy
it are reduced. -/
theorem contains_affine (hc : SmallCurve c c') {x y : α} {x' y' : Nat} (hx : Denotes x x')
    (hy : Denotes y y') :
    Refines True (fun contained contained' =>
        contained = contained' ∧ (contained' = true → x' < c'.p ∧ y' < c'.p))
      (c.contains (.affine x y)) (c'.contains (.affine x' y')) := by
  have haffine : Arithmetic.eqWord (Arithmetic.ofWord 1 : Nat) 1 = true := by decide
  refine (hc.contains_of ⟨hx, hy, LawfulArithmetic.ofWord 1⟩ fun hz =>
    absurd (haffine.symm.trans hz) (by decide)).and_of_ok fun contained hcontained htrue => ?_
  subst htrue
  by_contra hreduced
  have hrefused : (!Arithmetic.lt x' c'.p || !Arithmetic.lt y' c'.p) = true := by
    rw [Bool.or_eq_true, Bool.not_eq_true', Bool.not_eq_true', ← Bool.not_eq_true,
      ← Bool.not_eq_true, exact_lt_iff, exact_lt_iff]
    exact not_and_or.mp hreduced
  have hfalse : c'.contains (.affine x' y') = .ok false := by
    show (if (!Arithmetic.lt x' c'.p || !Arithmetic.lt y' c'.p) = true then _ else _) = _
    rw [if_pos hrefused]
    rfl
  rw [hfalse] at hcontained
  cases hcontained

/-- The wire form of a point. -/
theorem toWire (hc : SmallCurve c c') (hP : SmallPoint P P') :
    Refines True Eq (c.toWire P) (c'.toWire P') := by
  rw [Curve.toWire, Curve.toWire, hP.isInfinity_eq, hc.fieldBytes]
  refine .ite Iff.rfl (fun _ => .refused _) fun _ => ?_
  refine (hc.normalize hP).bind fun R R' hR => ?_
  refine (toBytesPadded hR.x.denotes _).bind fun x _ hx => ?_
  refine (toBytesPadded hR.y.denotes _).bind fun y _ hy => ?_
  subst hx hy
  exact .of_eq rfl

/-! ### Scalars, digests and key pairs -/

/-- Scalars in range are recognized alike, of whatever size. -/
theorem inScalarRange_eq (hc : SmallCurve c c') (hk : Denotes k n) :
    c.inScalarRange k = c'.inScalarRange n := by
  rw [Curve.inScalarRange, Curve.inScalarRange, hk.isZero_eq, hk.lt_eq hc.n.denotes]

/-- A scalar in range is small. -/
theorem small_of_inScalarRange (hc : SmallCurve c c') (hk : Denotes k n)
    (h : c'.inScalarRange n = true) : Small k n := by
  rw [Curve.inScalarRange, Bool.and_eq_true, exact_lt_iff] at h
  exact .of_le hk h.2.le hc.n

/-- Private scalars, of whatever size. -/
theorem privateScalar (hc : SmallCurve c c') (bytes : Bytes) :
    Refines True Small (c.privateScalar bytes) (c'.privateScalar bytes) := by
  have hk := LawfulArithmetic.ofBytes (α := α) bytes
  rw [Curve.privateScalar, Curve.privateScalar]
  exact .ite (by rw [hc.inScalarRange_eq hk]; rfl)
    (fun h => .ok (hc.small_of_inScalarRange hk h)) fun _ => .refused _

/-- Digests, of whatever size. -/
theorem digestToInt (hc : SmallCurve c c') (digest : Bytes) :
    Refines True Small (c.digestToInt digest) (c'.digestToInt digest) := by
  have hbits := hc.orderBits_le
  have hdigest := LawfulArithmetic.ofBytes (α := α) digest
  have hcount := Limbs.count_toNat_le digest
  have hscratch : FixedNat.scratchLimbs = 130 := rfl
  rw [Curve.digestToInt, Curve.digestToInt, hc.orderBits]
  refine .ite Iff.rfl (fun hlong => ?_) fun hshort => .ok (.ofBytes (by omega))
  -- the bits that are shifted out take all limbs but those of the order
  refine (((LawfulArithmetic.shiftRight hdigest _).under fun _ => by omega).and_of_ok
    (P := (· < 2 ^ c'.orderBits)) fun w hw => ?_).mono id
    fun _ _ hvalue => .of_lt_two_pow _ hvalue.1 hvalue.2 (by omega)
  have hexact : Except.ok (Bytes.toNat digest >>> (8 * digest.length - c'.orderBits))
      = Except.ok w := hw
  cases hexact
  rw [Nat.shiftRight_eq_div_pow, Nat.div_lt_iff_lt_mul (Nat.two_pow_pos _), ← Nat.pow_add,
    Nat.add_sub_of_le hlong.le, Nat.pow_mul]
  exact Bytes.toNat_lt digest

/-- The scalar made from drawn bytes. -/
theorem scalarOfBytes (hc : SmallCurve c c') {bytes : Bytes} (hlen : bytes.length ≤ 512) :
    Refines True Small (c.scalarOfBytes bytes) (c'.scalarOfBytes bytes) := by
  rw [Curve.scalarOfBytes, Curve.scalarOfBytes, hc.orderBits]
  refine ((Small.ofBytes hlen).maskBits _).bind fun masked _ hmasked => ?_
  refine ((hc.n.sub (LawfulArithmetic.ofWord 1)).and_of_ok fun bound hbound =>
    add_of_exact_sub hbound).bind fun bound bound' ⟨hbound, hsum⟩ => ?_
  refine ((hmasked.reduce hbound).and_of_ok fun reduced hreduced =>
    lt_of_exact_reduce hreduced).bind fun reduced reduced' ⟨hreduced, hlt⟩ => ?_
  refine hc.n.refines_of_le (hreduced.add (.ofWord 1)) fun w hw => ?_
  cases hw
  exact (Nat.succ_le_succ hlt.le).trans_eq hsum

variable {σ : Type} [RandomSource σ]

/-- Random scalars. -/
theorem randomScalar (hc : SmallCurve c c') :
    Lockstep Small (c.randomScalar : Randomized σ α) (c'.randomScalar : Randomized σ Nat) := by
  have hbits := hc.orderBits_le
  rw [Curve.randomScalar, Curve.randomScalar, hc.orderBits]
  refine (Lockstep.draw _).bind fun bytes bytes' ⟨hbytes, hlen⟩ => ?_
  subst hbytes
  exact .lift (hc.scalarOfBytes (by omega))

/-- Key pairs. -/
theorem keyPair (hc : SmallCurve c c') :
    Lockstep (fun pair pair' => Small pair.1 pair'.1 ∧ SmallPoint pair.2 pair'.2)
      (c.keyPair : Randomized σ (α × Jacobian α)) (c'.keyPair : Randomized σ (Nat × Jacobian Nat))
    := by
  refine hc.randomScalar.bind fun d d' hd => ?_
  refine (Lockstep.lift (hc.mul hd.denotes hc.g)).bind fun q q' hq => ?_
  exact .pure ⟨hd, hq⟩

/-! ### Numbers and points on the wire -/

/-- The wire form of a scalar. -/
theorem scalarParameter (hc : SmallCurve c c') (hk : Denotes k n) :
    Refines True Eq (c.scalarParameter k) (c'.scalarParameter n) := by
  rw [Curve.scalarParameter, Curve.scalarParameter, Curve.orderBytes, Curve.orderBytes,
    hc.orderBits]
  refine (LawfulArithmetic.toBytesPadded hk _).bind fun bytes _ hbytes => ?_
  subst hbytes
  exact .of_eq rfl

/-- The first coordinate of a point. -/
theorem xBytes (hc : SmallCurve c c') (hP : SmallPoint P P') :
    Refines True Eq (c.xBytes P) (c'.xBytes P') := by
  rw [Curve.xBytes, Curve.xBytes, hc.fieldBytes]
  exact LawfulArithmetic.toBytesPadded hP.x.denotes _

/-- Public points. -/
theorem validatedPoint (hc : SmallCurve c c') (q : Wire.Point) :
    Refines True SmallPoint (c.validatedPoint q) (c'.validatedPoint q) := by
  have hq := SmallPoint.ofWire (α := α) q
  rw [Curve.validatedPoint, Curve.validatedPoint]
  refine (hc.contains hq).bind fun contained _ hcontained => ?_
  subst hcontained
  exact .ite (by rw [hq.isInfinity_eq]) (fun _ => .refused _) fun _ => .ok hq

end SmallCurve

end TrustedPlatform
