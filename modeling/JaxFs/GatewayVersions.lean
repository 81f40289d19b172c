import JaxFs.Gateway
import JaxFs.RefreshMount

/-!
# The versions that the gateway serves

A page comes from the version that the request names, whether it is one of the bucket in
the URL or not, and published or not.  So the gateway keeps to the published versions of
the bucket exactly when the request names one, or when nothing can be read from what it
names.  Requests that name no hash are safe with a log whose published rows tell the truth.
-/

namespace JaxFs

section

variable [P : Primitives]

/-! ## Pages and where they come from -/

section

variable {fuel : ℕ} {mount : MountState} {path : Path} {request : GatewayRequest}

end

/-! ## Confinement -/

section

variable {parseHash : Name → Option Hash} {fuel : ℕ} {secretKey : SecretKey}
  {peer : PeerState LogTable} {request : GatewayRequest} {link : Link}

end

end

namespace Reference

end Reference

end JaxFs
