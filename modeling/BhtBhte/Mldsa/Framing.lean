import BhtBhte.Lib.Bytes
import BhtBhte.Mldsa.Fips204

/-!
# What a signature of the port is made for

The message is framed by a zero, the length of the context in one byte, and the context.  The length
is cut to that byte without a check, so a context of 256 bytes and more can give some of its end to
the message.  Apart from that the frame is read back in one way only, and a signature is bound to
what was framed.  `boundApart_iff` says which pairs of a context and a message share no signature.
-/
namespace BhtBhte.Fips204

open BhtBhte.Lib
open BhtBhte.Mldsa (Bytes Params Poly Xof int32 polyVecInfNorm)

/-- The last part of a context can go over to the message when it is as long as a multiple of
256. -/
theorem framed_eq_iff {ctx msg ctx' msg' : Bytes} :
    framed ctx msg = framed ctx' msg' ↔
      ctx.length % 256 = ctx'.length % 256 ∧ ctx ++ msg = ctx' ++ msg' := by
  have hlen : ctx.length.toUInt8 = ctx'.length.toUInt8 ↔
      ctx.length % 256 = ctx'.length % 256 := by
    rw [← UInt8.toNat_inj]
    rfl
  simp only [framed, List.cons_append, List.nil_append, List.cons.injEq,
    true_and, hlen]

/-- The comparison at the end of a verification. -/
theorem eq_of_compared {a b : Bytes}
    (h : (if b.length ≠ a.length then some false
      else some (decide ((List.range a.length).foldl
        (fun diff i => diff ||| (a.getD i 0 ^^^ b.getD i 0)) 0 = 0))) = some true) : a = b := by
  by_cases hlength : b.length ≠ a.length
  · rw [if_pos hlength] at h
    cases h
  · rw [if_neg hlength, Option.some.injEq, decide_eq_true_eq] at h
    exact (foldl_xor_eq_zero (not_not.mp hlength).symm).mp h

section Bound
variable [Xof] {p : Params} {pk : PublicKey} {ctx msg ctx' msg' : Bytes}

/-- The hash of the key, as the verifier computes it. -/
def keyHash (p : Params) (pk : PublicKey) : Bytes := shake256Sum 64 (encodePK p pk)

/-- The message representative. -/
def representative (p : Params) (pk : PublicKey) (ctx msg : Bytes) : Bytes :=
  shake256Sum 64 (cat [keyHash p pk, framed ctx msg])

/-- No two of the strings that the two verifications hash collide. -/
structure CollisionFree (p : Params) (pk : PublicKey) (ctx msg ctx' msg' : Bytes) : Prop where
  representatives : representative p pk ctx msg = representative p pk ctx' msg' →
    cat [keyHash p pk, framed ctx msg] = cat [keyHash p pk, framed ctx' msg']
  challenges : ∀ w, shake256Sum p.ctBytes (cat [representative p pk ctx msg, w]) =
    shake256Sum p.ctBytes (cat [representative p pk ctx' msg', w]) →
      cat [representative p pk ctx msg, w] = cat [representative p pk ctx' msg', w]

/-- The two frames differ, and unless SHAKE256 collides no signature is accepted for both. -/
def BoundApart (p : Params) (pk : PublicKey) (ctx msg ctx' msg' : Bytes) : Prop :=
  framed ctx msg ≠ framed ctx' msg' ∧
    (CollisionFree p pk ctx msg ctx' msg' → ∀ sig, verifyCore p pk msg ctx sig = some true →
      verifyCore p pk msg' ctx' sig ≠ some true)

/-- What is accepted carries the hash of its representative and of some rows, and these do not
depend on the context or the message. -/
theorem exists_rows (p : Params) (pk : PublicKey) (sig : Bytes) : ∃ w, ∀ ctx msg,
    verifyCore p pk msg ctx sig = some true →
      slice sig 0 p.ctBytes = shake256Sum p.ctBytes (cat [representative p pk ctx msg, w]) := by
  by_cases hsize : int32 sig.length ≠ sigSize p
  · refine ⟨[], fun ctx msg h => ?_⟩
    rw [verifyCore, if_pos hsize] at h
    cases h
  cases hhint : hintUnpack (slice sig (p.ctBytes + p.l * zBytesPerPoly p) (p.omega + p.k)) p.omega
      p.k with
  | none =>
      refine ⟨[], fun ctx msg h => ?_⟩
      simp only [verifyCore, if_neg hsize, hhint] at h
      cases h
  | some hints =>
      by_cases hnorm : p.gamma1 - p.beta ≤ polyVecInfNorm ((List.range p.l).map fun j =>
          bitUnpack (slice sig (p.ctBytes + j * zBytesPerPoly p) (zBytesPerPoly p)) p.gamma1
            (zbits p))
      · refine ⟨[], fun ctx msg h => ?_⟩
        simp only [verifyCore, if_neg hsize, hhint, if_pos hnorm] at h
        cases h
      cases hmatrix : expandA pk.rho.toList p.k p.l with
      | none =>
          refine ⟨[], fun ctx msg h => ?_⟩
          simp only [verifyCore, if_neg hsize, hhint, if_neg hnorm, hmatrix] at h
          cases h
      | some a =>
          cases hball : sampleInBall (slice sig 0 p.ctBytes) p.tau with
          | none =>
              refine ⟨[], fun ctx msg h => ?_⟩
              simp only [verifyCore, if_neg hsize, hhint, if_neg hnorm, hmatrix, hball] at h
              cases h
          | some c =>
              apply Exists.intro
              intro ctx msg h
              simp only [verifyCore, if_neg hsize, hhint, if_neg hnorm, hmatrix, hball,
                Option.bind_eq_bind, Option.bind_some] at h
              exact eq_of_compared h

omit [Xof] in
theorem cat_pair (a b : Bytes) : cat [a, b] = a ++ b := rfl

/-- Pairs that are framed alike have the same signatures. -/
theorem verifyCore_congr (h : framed ctx msg = framed ctx' msg') (sig : Bytes) :
    verifyCore p pk msg ctx sig = verifyCore p pk msg' ctx' sig := by
  simp only [verifyCore, h]

/-- A signature that is accepted for two pairs is for two pairs that are framed alike. -/
theorem framed_eq_of_accepted (hfree : CollisionFree p pk ctx msg ctx' msg') {sig : Bytes}
    (h : verifyCore p pk msg ctx sig = some true)
    (h' : verifyCore p pk msg' ctx' sig = some true) : framed ctx msg = framed ctx' msg' := by
  obtain ⟨w, hw⟩ := exists_rows p pk sig
  have hrows := hfree.challenges w ((hw ctx msg h).symm.trans (hw ctx' msg' h'))
  rw [cat_pair, cat_pair] at hrows
  have hframes := hfree.representatives (List.append_cancel_right hrows)
  rw [cat_pair, cat_pair] at hframes
  exact List.append_cancel_left hframes

theorem boundApart_of_ne (h : framed ctx msg ≠ framed ctx' msg') :
    BoundApart p pk ctx msg ctx' msg' :=
  ⟨h, fun hfree _ haccepted haccepted' => h (framed_eq_of_accepted hfree haccepted haccepted')⟩

/-- **Two pairs share no signature exactly unless a multiple of 256 bytes goes over from one
context to the other message.** -/
theorem boundApart_iff (p : Params) (pk : PublicKey) (ctx msg ctx' msg' : Bytes) :
    ((ctx, msg) ≠ (ctx', msg') → BoundApart p pk ctx msg ctx' msg') ↔
      ctx.length = ctx'.length ∨ ctx.length % 256 ≠ ctx'.length % 256 ∨
        ctx ++ msg ≠ ctx' ++ msg' := by
  constructor
  · intro hbound
    by_contra hcond
    simp only [not_or, not_not, ne_eq] at hcond
    obtain ⟨hlength, hmod, happend⟩ := hcond
    have hne : (ctx, msg) ≠ (ctx', msg') := fun heq =>
      hlength (congrArg (fun e => e.1.length) heq)
    exact (hbound hne).1 (framed_eq_iff.mpr ⟨hmod, happend⟩)
  · rintro hcond hne
    refine boundApart_of_ne fun heq => ?_
    obtain ⟨hmod, happend⟩ := framed_eq_iff.mp heq
    rcases hcond with hlength | hmod' | happend'
    · obtain ⟨hctx, hmsg⟩ := List.append_inj happend hlength
      exact hne (by rw [hctx, hmsg])
    · exact hmod' hmod
    · exact happend' happend

end Bound

/-- A context of 256 bytes without a message is framed as a message of 256 bytes without a
context, and has the same signatures. -/
theorem framed_shifted :
    (List.replicate 256 (0 : UInt8), ([] : Bytes)) ≠ ([], List.replicate 256 0) ∧
      framed (List.replicate 256 0) [] = framed [] (List.replicate 256 0) ∧
      ∀ (_ : Xof) (p : Params) (pk : PublicKey) (sig : Bytes),
        verifyCore p pk [] (List.replicate 256 0) sig =
          verifyCore p pk (List.replicate 256 0) [] sig := by
  have hframed : framed (List.replicate 256 0) [] = framed [] (List.replicate 256 0) :=
    framed_eq_iff.mpr ⟨by rw [List.length_replicate]; rfl, by rw [List.append_nil, List.nil_append]⟩
  refine ⟨fun heq => ?_, hframed, fun _ p pk sig => verifyCore_congr hframed sig⟩
  have hlength := congrArg List.length (Prod.mk.inj heq).1
  rw [List.length_replicate] at hlength
  cases hlength

end BhtBhte.Fips204
