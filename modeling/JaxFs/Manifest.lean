import JaxFs.KeyedMap
import JaxFs.LinkedData

/-!
# Manifests

`mount/manifest.rs` and `mount/principal.rs`: the root record of one bucket
version, with the shares of its principals.  The shares are keyed by the
hexadecimal form of the public keys, as in the source.  Signing and encoding need
the cryptographic primitives and come with them.
-/

namespace JaxFs

inductive PrincipalRole where
  | owner
  | mirror
  deriving DecidableEq

structure Principal where
  role : PrincipalRole
  identity : PublicKey
  deriving DecidableEq

structure Share where
  principal : Principal
  share : Option SecretShare
  deriving DecidableEq

namespace Share

def newOwner (share : SecretShare) (publicKey : PublicKey) : Share :=
  ⟨⟨.owner, publicKey⟩, some share⟩

def newMirror (publicKey : PublicKey) : Share := ⟨⟨.mirror, publicKey⟩, none⟩

def role (share : Share) : PrincipalRole := share.principal.role

def setShare (share : Share) (secretShare : SecretShare) : Share :=
  { share with share := some secretShare }

end Share

abbrev Shares := FinMap Name Share

structure Manifest where
  id : Uuid
  name : Name
  height : ℕ
  version : Name
  shares : Shares
  entry : Link
  pins : Link
  previous : Option Link
  opsLog : Option Link
  «public» : Option Secret
  author : Option PublicKey
  signature : Option Signature
  deriving DecidableEq

namespace Manifest

def new (id : Uuid) (name : Name) (owner : PublicKey) (share : SecretShare)
    (entry pins : Link) (height : ℕ) : Manifest where
  id := id
  name := name
  height := height
  version := []
  shares := FinMap.put KeyedMap.empty owner.toHex (Share.newOwner share owner)
  entry := entry
  pins := pins
  previous := none
  opsLog := none
  «public» := none
  author := none
  signature := none

def getShare (manifest : Manifest) (publicKey : PublicKey) : Option Share :=
  manifest.shares.get? publicKey.toHex

def isPublished (manifest : Manifest) : Bool := manifest.public.isSome

def isSigned (manifest : Manifest) : Bool :=
  manifest.author.isSome && manifest.signature.isSome

def setEntry (manifest : Manifest) (entry : Link) : Manifest :=
  { manifest with entry := entry }

def setPins (manifest : Manifest) (pinsLink : Link) : Manifest :=
  { manifest with pins := pinsLink }

def setPrevious (manifest : Manifest) (previous : Link) : Manifest :=
  { manifest with previous := some previous }

def setHeight (manifest : Manifest) (height : ℕ) : Manifest :=
  { manifest with height := height }

def setOpsLog (manifest : Manifest) (link : Link) : Manifest :=
  { manifest with opsLog := some link }

def clearOpsLog (manifest : Manifest) : Manifest := { manifest with opsLog := none }

def addShare (manifest : Manifest) (share : Share) : Manifest :=
  { manifest with
    shares := manifest.shares.put share.principal.identity.toHex share }

def publish (manifest : Manifest) (secret : Secret) : Manifest :=
  { manifest with «public» := some secret }

def unpublish (manifest : Manifest) : Manifest := { manifest with «public» := none }

end Manifest

end JaxFs
