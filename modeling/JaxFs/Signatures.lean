import JaxFs.ReferencePrimitives

/-!
# Signatures of manifests

A signature is made over the encoding of the manifest without it, after the author is set.
It covers every other field: under a scheme that cannot be forged, what verifies with the
author and the signature of a signed manifest is that manifest.
-/

namespace JaxFs

/-- A signature of a key verifies for the message it was made for, and for no other. -/
class SoundSignatures [P : Primitives] : Prop where
  verify_sign : ∀ key message,
    P.verify (P.publicKey key) message (P.sign key message) = true
  unforgeable : ∀ key message message',
    P.verify (P.publicKey key) message' (P.sign key message) = true → message' = message

namespace Manifest

section

variable [P : Primitives]

@[simp] theorem author_sign (manifest : Manifest) (key : SecretKey) :
    (manifest.sign key).author = some (P.publicKey key) := rfl

@[simp] theorem signature_sign (manifest : Manifest) (key : SecretKey) :
    (manifest.sign key).signature = some (P.sign key (manifest.sign key).signableBytes) := rfl

/-- Equal signed bytes are of manifests that differ in their signature at most. -/
theorem eq_of_signableBytes_eq (hencode : Function.Injective P.encodeManifest)
    {manifest manifest' : Manifest} (hbytes : manifest.signableBytes = manifest'.signableBytes)
    (hsignature : manifest.signature = manifest'.signature) : manifest = manifest' := by
  have hunsigned := hencode hbytes
  calc
    manifest = { { manifest with signature := none } with signature := manifest.signature } := rfl
    _ = { { manifest' with signature := none } with signature := manifest.signature } := by
      rw [hunsigned]
    _ = manifest' := by rw [hsignature]

/-- Next to the author and the signature of a signed manifest, only its own fields verify. -/
theorem verifySignature_eq_ite [SoundSignatures] (hencode : Function.Injective P.encodeManifest)
    {manifest manifest' : Manifest} {key : SecretKey}
    (hauthor : manifest'.author = (manifest.sign key).author)
    (hsignature : manifest'.signature = (manifest.sign key).signature) :
    manifest'.verifySignature = if manifest' = manifest.sign key then .ok true else .error () := by
  have hverify : manifest'.verifySignature =
      if P.verify (P.publicKey key) manifest'.signableBytes
          (P.sign key (manifest.sign key).signableBytes) then .ok true else .error () := by
    unfold verifySignature
    rw [hauthor, hsignature, author_sign, signature_sign]
  rw [hverify]
  by_cases hsame : manifest' = manifest.sign key
  · rw [hsame, SoundSignatures.verify_sign, if_pos rfl, if_pos rfl]
  · rw [if_neg hsame, if_neg]
    intro hpasses
    exact hsame (eq_of_signableBytes_eq hencode
      (SoundSignatures.unforgeable key _ _ hpasses) hsignature)

end

/-- The setters of a manifest. -/
inductive Setter where
  | setEntry (entry : Link)
  | setPins (pinsLink : Link)
  | setPrevious (previous : Link)
  | setHeight (height : ℕ)
  | setOpsLog (link : Link)
  | clearOpsLog
  | addShare (share : Share)
  | publish (secret : Secret)
  | unpublish

def Setter.apply (manifest : Manifest) : Setter → Manifest
  | .setEntry entry => manifest.setEntry entry
  | .setPins pinsLink => manifest.setPins pinsLink
  | .setPrevious previous => manifest.setPrevious previous
  | .setHeight height => manifest.setHeight height
  | .setOpsLog link => manifest.setOpsLog link
  | .clearOpsLog => manifest.clearOpsLog
  | .addShare share => manifest.addShare share
  | .publish secret => manifest.publish secret
  | .unpublish => manifest.unpublish

/-- No setter touches the author or the signature. -/
theorem author_signature_foldl_apply (manifest : Manifest) (setters : List Setter) :
    (setters.foldl Setter.apply manifest).author = manifest.author ∧
      (setters.foldl Setter.apply manifest).signature = manifest.signature := by
  induction setters generalizing manifest with
  | nil => exact ⟨rfl, rfl⟩
  | cons setter rest ih =>
      rw [List.foldl_cons]
      have hstep : (setter.apply manifest).author = manifest.author ∧
          (setter.apply manifest).signature = manifest.signature := by
        cases setter <;> exact ⟨rfl, rfl⟩
      exact ⟨(ih _).1.trans hstep.1, (ih _).2.trans hstep.2⟩

/-- A manifest verifies once it is signed, whether it was signed before or not; what else has
its author and signature and verifies is the same manifest, and setters that change anything
make the check fail. -/
theorem sign_binds_manifest [P : Primitives] [SoundSignatures]
    (hencode : Function.Injective P.encodeManifest) (manifest : Manifest) (key : SecretKey) :
    let signed := manifest.sign key
    signed.verifySignature = .ok true ∧ signed.author = some (P.publicKey key) ∧
      (∀ manifest' : Manifest, manifest'.author = signed.author →
        manifest'.signature = signed.signature → manifest'.verifySignature = .ok true →
          manifest' = signed) ∧
      ∀ setters : List Setter, setters.foldl Setter.apply signed ≠ signed →
        (setters.foldl Setter.apply signed).verifySignature = .error () := by
  intro signed
  refine ⟨?_, rfl, ?_, ?_⟩
  · exact (verifySignature_eq_ite hencode rfl rfl).trans (if_pos rfl)
  · intro manifest' hauthor hsignature hverified
    by_contra hchanged
    rw [verifySignature_eq_ite hencode hauthor hsignature, if_neg hchanged] at hverified
    cases hverified
  · intro setters hchanged
    obtain ⟨hauthor, hsignature⟩ := author_signature_foldl_apply signed setters
    exact (verifySignature_eq_ite hencode hauthor hsignature).trans (if_neg hchanged)

end Manifest

namespace Reference

/-- A scheme whose signatures hold their key and message. -/
@[reducible] def messageSignatures : Primitives :=
  { primitives with
    sign := fun key message => ⟨bytesCode.encode key.bytes ++ message⟩
    verify := fun key message signature =>
      decide (signature.bytes = bytesCode.encode key.bytes ++ message) }

theorem soundSignatures_messageSignatures : @SoundSignatures messageSignatures :=
  @SoundSignatures.mk messageSignatures (fun _ _ => decide_eq_true rfl)
    (fun _ _ _ h => (List.append_cancel_left (of_decide_eq_true h)).symm)

/-- A manifest that is signed again verifies, and with another height or published it does
not. -/
theorem sign_binds_manifest_genesis :
    (@Manifest.sign messageSignatures genesis bob).verifySignature (P := messageSignatures) =
        .ok true ∧
      ([Manifest.Setter.setHeight 1, .publish Secret.default].foldl Manifest.Setter.apply
        (@Manifest.sign messageSignatures genesis bob)).verifySignature (P := messageSignatures) =
        .error () := by
  have hbinds := @Manifest.sign_binds_manifest messageSignatures
    soundSignatures_messageSignatures manifestCode.encode_injective genesis bob
  refine ⟨hbinds.1, hbinds.2.2.2 _ ?_⟩
  intro hsame
  exact absurd (congrArg Manifest.height hsame) (by decide)

end Reference

end JaxFs
