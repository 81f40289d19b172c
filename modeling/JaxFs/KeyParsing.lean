import JaxFs.AbsolutePaths
import JaxFs.PeerSystem
import JaxFs.Ping

/-!
# Reading keys

`crypto/keys.rs` and those who read keys that another peer has written.  A key comes in as a
string or as bytes; the length and the digits are checked, and what is left goes through the
conversion that takes any 32 bytes and panics when they are no point of the curve.  So the
fallible readings return exactly when they fail before the conversion or succeed.
-/

namespace JaxFs

open BucketLogProvider

/-! ## Hexadecimal digits -/

theorem hexValue_hexDigit (digit : Fin 16) : hexValue (hexDigit digit.val) = some digit.val := by
  revert digit
  decide

theorem hexDigit_ne_x (digit : Fin 16) : hexDigit digit.val ≠ 'x' := by
  revert digit
  decide

theorem hexEncode_cons (byte : Fin 256) (bytes : Bytes) :
    hexEncode (byte :: bytes) =
      hexDigit (byte.val / 16) :: hexDigit (byte.val % 16) :: hexEncode bytes := by
  simp [hexEncode]

theorem hexDecode_hexEncode (bytes : Bytes) : hexDecode (hexEncode bytes) = some bytes := by
  induction bytes with
  | nil => rfl
  | cons byte rest ih =>
      have hhigh := hexValue_hexDigit ⟨byte.val / 16, by omega⟩
      have hlow := hexValue_hexDigit ⟨byte.val % 16, by omega⟩
      dsimp only at hhigh hlow
      rw [hexEncode_cons, hexDecode, hhigh, hlow, ih]
      simp only [Option.some.injEq, List.cons.injEq, and_true]
      apply Fin.ext
      simp only [Fin.ofNat]
      omega

theorem length_of_hexDecode {digits : Name} {bytes : Bytes} (h : hexDecode digits = some bytes) :
    digits.length = 2 * bytes.length ∧ ∀ digit ∈ digits, (hexValue digit).isSome = true := by
  induction digits using hexDecode.induct generalizing bytes with
  | case1 =>
      cases h
      simp
  | case2 => contradiction
  | case3 high low rest highValue lowValue below hbelow hhigh hlow ih =>
      rw [hexDecode, hhigh, hlow, hbelow] at h
      cases h
      obtain ⟨hlength, hdigits⟩ := ih hbelow
      constructor
      · simp only [List.length_cons, hlength]
        omega
      · simpa [hhigh, hlow] using hdigits
  | case4 high low rest hnone ih =>
      rw [hexDecode] at h
      split at h
      · next hhigh hlow hbelow => exact absurd hbelow (hnone _ _ _ hhigh hlow)
      · contradiction

theorem exists_hexDecode {digits : Name} {size : ℕ} (hlength : digits.length = 2 * size)
    (hdigits : ∀ digit ∈ digits, (hexValue digit).isSome = true) :
    ∃ bytes, hexDecode digits = some bytes ∧ bytes.length = size := by
  induction size generalizing digits with
  | zero =>
      obtain rfl := List.length_eq_zero_iff.mp hlength
      exact ⟨[], rfl, rfl⟩
  | succ size ih =>
      match digits with
      | [] => simp at hlength
      | [_] =>
          simp only [List.length_cons, List.length_nil] at hlength
          omega
      | high :: low :: rest =>
          have hrest : rest.length = 2 * size := by
            simp only [List.length_cons] at hlength
            omega
          obtain ⟨highValue, hhigh⟩ := Option.isSome_iff_exists.mp (hdigits high (by simp))
          obtain ⟨lowValue, hlow⟩ := Option.isSome_iff_exists.mp (hdigits low (by simp))
          obtain ⟨bytes, hbytes, hsize⟩ := ih hrest
            (fun digit hdigit => hdigits digit (by simp [hdigit]))
          refine ⟨Fin.ofNat 256 (16 * highValue + lowValue) :: bytes, ?_, by simp [hsize]⟩
          rw [hexDecode, hhigh, hlow, hbytes]

/-! ## What the strings stand for -/

/-- The digits of a key, without an `0x` before them. -/
def keyDigits (hex : Name) : Name :=
  if List.isPrefixOf ['0', 'x'] hex then hex.drop 2 else hex

def IsKeyHex (hex : Name) : Prop :=
  (keyDigits hex).length = 64 ∧ ∀ digit ∈ keyDigits hex, (hexValue digit).isSome = true

section

variable [P : Primitives]

/-- 64 digits that encode a point of the curve. -/
def EncodesPoint (hex : Name) : Prop :=
  IsKeyHex hex ∧ ∃ bytes, hexDecode (keyDigits hex) = some bytes ∧ P.isPoint bytes = true

/-- 64 digits that encode something else. -/
def EncodesNoPoint (hex : Name) : Prop :=
  IsKeyHex hex ∧ ∃ bytes, hexDecode (keyDigits hex) = some bytes ∧ P.isPoint bytes = false

/-- What a `PublicKey` of the source is. -/
structure ValidKey (key : PublicKey) : Prop where
  length : key.bytes.length = publicKeySize
  point : P.isPoint key.bytes = true

/-! ## Readings of one key -/

omit P in
theorem readReturns_error_iff {α : Type} {fault : Fault} :
    ReadReturns (.error fault : Except Fault α) ↔ ∃ error, fault = .error error := by
  constructor
  · exact fun h => h fault rfl
  · intro herror found hfound
    cases hfound
    exact herror

theorem fromHex_match (hex : Name) :
    PublicKey.fromHex hex =
      match hexDecode (keyDigits hex) with
      | none => .error (.error (.default "public key hex decode error"))
      | some bytes =>
          if bytes.length ≠ 32 then
            .error (.error (.default "public key hex decode error"))
          else PublicKey.ofBytes bytes := rfl

/-- 64 digits become 32 bytes, and anything else is an error. -/
theorem fromHex_eq (hex : Name) :
    (IsKeyHex hex ∧ ∃ bytes, hexDecode (keyDigits hex) = some bytes ∧
      PublicKey.fromHex hex = PublicKey.ofBytes bytes) ∨
    (¬ IsKeyHex hex ∧ ∃ error, PublicKey.fromHex hex = .error (.error error)) := by
  by_cases hhex : IsKeyHex hex
  · left
    obtain ⟨bytes, hbytes, hlength⟩ := @exists_hexDecode _ 32 hhex.1 hhex.2
    refine ⟨hhex, bytes, hbytes, ?_⟩
    rw [fromHex_match, hbytes]
    dsimp only
    rw [if_neg (by omega)]
  · right
    refine ⟨hhex, .default "public key hex decode error", ?_⟩
    rw [fromHex_match]
    cases hbytes : hexDecode (keyDigits hex) with
    | none => rfl
    | some bytes =>
        have hlength : bytes.length ≠ 32 := by
          intro heq
          obtain ⟨hdigits, hall⟩ := length_of_hexDecode hbytes
          exact hhex ⟨by omega, hall⟩
        exact if_pos hlength

theorem fromHex_cases (hex : Name) :
    (EncodesPoint hex ∧ ¬ EncodesNoPoint hex ∧ ∃ key, PublicKey.fromHex hex = .ok key) ∨
    (EncodesNoPoint hex ∧ ¬ EncodesPoint hex ∧ PublicKey.fromHex hex = .error .panic) ∨
    (¬ EncodesPoint hex ∧ ¬ EncodesNoPoint hex ∧
      ∃ error, PublicKey.fromHex hex = .error (.error error)) := by
  unfold EncodesPoint EncodesNoPoint
  rcases fromHex_eq hex with ⟨hhex, bytes, hbytes, hread⟩ | ⟨hhex, hread⟩
  · rw [hread]
    unfold PublicKey.ofBytes
    cases hpoint : P.isPoint bytes <;> simp [hhex, hbytes, hpoint]
  · right
    right
    exact ⟨fun h => hhex h.1, fun h => hhex h.1, hread⟩

theorem readReturns_ofBytes_iff (bytes : Bytes) :
    ReadReturns (PublicKey.ofBytes bytes) ↔ P.isPoint bytes = true := by
  unfold PublicKey.ofBytes
  split_ifs with hpoint
  · exact iff_of_true (readReturns_ok _) hpoint
  · exact iff_of_false not_readReturns_panic hpoint

theorem readReturns_fromHex_iff (hex : Name) :
    ReadReturns (PublicKey.fromHex hex) ↔ ¬ EncodesNoPoint hex := by
  rcases fromHex_cases hex with ⟨-, hpoint, key, hread⟩ | ⟨hpoint, -, hread⟩ |
    ⟨-, hpoint, error, hread⟩
  · rw [hread]
    exact iff_of_true (readReturns_ok _) hpoint
  · rw [hread]
    exact iff_of_false not_readReturns_panic (not_not.mpr hpoint)
  · rw [hread]
    exact iff_of_true (readReturns_error _) hpoint

theorem exists_fromHex_iff (hex : Name) :
    (∃ key, PublicKey.fromHex hex = .ok key) ↔ EncodesPoint hex := by
  rcases fromHex_cases hex with ⟨hpoint, -, key, hread⟩ | ⟨-, hpoint, hread⟩ |
    ⟨hpoint, -, error, hread⟩
  · simp [hread, hpoint]
  · simp [hread, hpoint]
  · simp [hread, hpoint]

omit P in
theorem keyDigits_hexEncode (bytes : Bytes) : keyDigits (hexEncode bytes) = hexEncode bytes := by
  unfold keyDigits
  apply if_neg
  cases bytes with
  | nil => simp [hexEncode]
  | cons byte rest =>
      have hlow := hexDigit_ne_x ⟨byte.val % 16, by omega⟩
      rw [hexEncode_cons]
      simp only [List.isPrefixOf, Bool.and_eq_true, beq_iff_eq, not_and]
      intro _ heq
      exact absurd heq.symm hlow

theorem fromHex_hexEncode {bytes : Bytes} (hlength : bytes.length = publicKeySize) :
    PublicKey.fromHex (hexEncode bytes) = PublicKey.ofBytes bytes := by
  rcases fromHex_eq (hexEncode bytes) with ⟨-, found, hfound, hread⟩ | ⟨hhex, -⟩
  · rw [keyDigits_hexEncode, hexDecode_hexEncode] at hfound
    cases hfound
    exact hread
  · obtain ⟨hdigits, hall⟩ := length_of_hexDecode (hexDecode_hexEncode bytes)
    rw [hlength] at hdigits
    refine absurd ⟨?_, ?_⟩ hhex
    · rw [keyDigits_hexEncode]
      exact hdigits
    · rw [keyDigits_hexEncode]
      exact hall

theorem fromHex_toHex {key : PublicKey} (h : ValidKey key) :
    PublicKey.fromHex key.toHex = .ok key := by
  rw [PublicKey.toHex, fromHex_hexEncode h.length]
  exact if_pos h.point

theorem readReturns_tryFrom_iff (bytes : Bytes) :
    ReadReturns (PublicKey.tryFrom bytes) ↔
      ¬ (bytes.length = publicKeySize ∧ P.isPoint bytes = false) := by
  unfold PublicKey.tryFrom
  split_ifs with hlength
  · exact iff_of_true (readReturns_error _) (fun h => hlength h.1)
  · rw [readReturns_ofBytes_iff]
    simp [not_not.mp hlength]

omit P in
theorem length_take_publicKeySize {share : SecretShare} (hshare : share.bytes.length = 72) :
    (share.bytes.take publicKeySize).length = publicKeySize :=
  List.length_take_of_le (by simp [hshare, publicKeySize])

/-- The key in a share is read as any key. -/
theorem recover_of_length {share : SecretShare} (hshare : share.bytes.length = 72)
    (secretKey : SecretKey) : share.recover secretKey =
      match PublicKey.tryFrom (share.bytes.take publicKeySize) with
      | .error fault => .error fault
      | .ok _ =>
          match P.recover share secretKey with
          | none => .error (.error .share)
          | some secret => .ok secret := by
  have hread : PublicKey.tryFrom (share.bytes.take publicKeySize) =
      PublicKey.ofBytes (share.bytes.take publicKeySize) :=
    if_neg (not_not.mpr (length_take_publicKeySize hshare))
  exact hread ▸ rfl

theorem readReturns_recover_iff {share : SecretShare} (hshare : share.bytes.length = 72)
    (secretKey : SecretKey) : ReadReturns (share.recover secretKey) ↔
      P.isPoint (share.bytes.take publicKeySize) = true := by
  have hkey := length_take_publicKeySize hshare
  have hreads := readReturns_tryFrom_iff (share.bytes.take publicKeySize)
  simp only [hkey, true_and, Bool.not_eq_false] at hreads
  rw [recover_of_length hshare, ← hreads]
  cases PublicKey.tryFrom (share.bytes.take publicKeySize) with
  | error fault => simp only [readReturns_error_iff]
  | ok key =>
      apply iff_of_true _ (readReturns_ok _)
      dsimp only
      cases P.recover share secretKey with
      | none => exact readReturns_error _
      | some secret => exact readReturns_ok _

/-! ## The keys of a manifest -/

def Manifest.shareKeys (manifest : Manifest) : List Name :=
  manifest.shares.toList.map Prod.fst

omit P in
theorem mem_shareKeys_iff {manifest : Manifest} {key : Name} :
    key ∈ manifest.shareKeys ↔ manifest.shares.contains key = true := by
  rw [KeyedMap.contains_iff]
  exact List.mem_map

/-- The keys that do not parse are dropped, unless one of them panics. -/
theorem readReturns_parsePeerIds_iff (keys : List Name) :
    ReadReturns (parsePeerIds keys) ↔ ∀ key ∈ keys, ¬ EncodesNoPoint key := by
  induction keys with
  | nil => simp [parsePeerIds, readReturns_ok]
  | cons key rest ih =>
      rw [List.forall_mem_cons, ← ih, parsePeerIds]
      rcases fromHex_cases key with ⟨-, hpoint, peerId, hread⟩ | ⟨hpoint, -, hread⟩ |
        ⟨-, hpoint, error, hread⟩
      · rw [hread, and_iff_right hpoint]
        exact readReturns_bind_iff (fun _ _ => readReturns_ok _)
      · rw [hread]
        exact iff_of_false not_readReturns_panic (fun h => h.1 hpoint)
      · rw [hread, and_iff_right hpoint]

theorem readReturns_getPeerIds_iff (manifest : Manifest) :
    ReadReturns manifest.getPeerIds ↔ ∀ key ∈ manifest.shareKeys, ¬ EncodesNoPoint key :=
  readReturns_parsePeerIds_iff manifest.shareKeys

/-! ## Runs that meet the keys -/

/-- A run ends with a value or with an error that it returns. -/
def RunReturns {σ α : Type} (x : EStateM Fault σ α) (state : σ) : Prop :=
  ∀ fault state', x.run state = .error fault state' → ∃ error, fault = .error error

section

omit P

variable {σ α β : Type} {x : EStateM Fault σ α} {state state' : σ}

theorem runReturns_of_ok {a : α} (h : x.run state = .ok a state') : RunReturns x state := by
  intro fault state'' hfault
  rw [h] at hfault
  cases hfault

theorem runReturns_iff_of_error {fault : Fault} (h : x.run state = .error fault state') :
    RunReturns x state ↔ ∃ error, fault = .error error := by
  constructor
  · exact fun hreturns => hreturns _ _ h
  · intro herror found state'' hfound
    rw [h] at hfound
    cases hfound
    exact herror

theorem runReturns_throw_iff {fault : Fault} :
    RunReturns (throw fault : EStateM Fault σ α) state ↔ ∃ error, fault = .error error :=
  runReturns_iff_of_error rfl

theorem runReturns_bind_iff_of_ok {f : α → EStateM Fault σ β} {a : α}
    (h : x.run state = .ok a state') : RunReturns (x >>= f) state ↔ RunReturns (f a) state' := by
  unfold RunReturns
  rw [EStateM.run_bind_of_ok h]

end

/-! ## Pings -/

/-- A run of the 32 hexadecimal digits of an identifier. -/
def Uuid.digits (id : Uuid) (first count : ℕ) : Name :=
  (List.range count).map (fun i => hexDigit (id.value / 16 ^ (31 - (first + i)) % 16))

/-- The hyphenated form. -/
def Uuid.display (id : Uuid) : String :=
  String.ofList (List.intercalate ['-']
    [id.digits 0 8, id.digits 8 4, id.digits 12 4, id.digits 16 4, id.digits 20 12])

variable {σ : Type}

/-- The loop of `Peer::ping` over the keys of the shares.  A dispatch that fails is only
logged. -/
def pingPeers (env : PeerEnv) (bucketId : Uuid) (ourKey : Name) :
    List Name → EStateM Fault (PeerState σ) Unit
  | [] => pure ()
  | peerKeyHex :: rest =>
      if peerKeyHex = ourKey then pingPeers env bucketId ourKey rest
      else
        match PublicKey.fromHex peerKeyHex with
        | .ok peerId => do
            modify (fun peer => ((dispatch env (.pingPeer bucketId peerId)).run peer).state)
            pingPeers env bucketId ourKey rest
        | .error (.error _) => throw (.error (.default
            "Invalid peer key in shares: key error: public key hex decode error"))
        | .error fault => throw fault

/-- Before any key that does not parse there is one that panics; our own key is skipped. -/
inductive MeetsNoPoint (ourKey : Name) : List Name → Prop
  | first {key : Name} {rest : List Name} : key ≠ ourKey → EncodesNoPoint key →
      MeetsNoPoint ourKey (key :: rest)
  | later {key : Name} {rest : List Name} : (key = ourKey ∨ EncodesPoint key) →
      MeetsNoPoint ourKey rest → MeetsNoPoint ourKey (key :: rest)

theorem meetsNoPoint_cons_iff {ourKey key : Name} {rest : List Name} :
    MeetsNoPoint ourKey (key :: rest) ↔ (key ≠ ourKey ∧ EncodesNoPoint key) ∨
      ((key = ourKey ∨ EncodesPoint key) ∧ MeetsNoPoint ourKey rest) := by
  constructor
  · intro h
    cases h with
    | first hkey hpoint => exact Or.inl ⟨hkey, hpoint⟩
    | later hkey hrest => exact Or.inr ⟨hkey, hrest⟩
  · rintro (⟨hkey, hpoint⟩ | ⟨hkey, hrest⟩)
    · exact .first hkey hpoint
    · exact .later hkey hrest

theorem runReturns_pingPeers_iff (env : PeerEnv) (bucketId : Uuid) (ourKey : Name)
    (keys : List Name) (peer : PeerState σ) :
    RunReturns (pingPeers env bucketId ourKey keys) peer ↔ ¬ MeetsNoPoint ourKey keys := by
  induction keys generalizing peer with
  | nil => exact iff_of_true (runReturns_of_ok rfl) (fun h => nomatch h)
  | cons key rest ih =>
      rw [pingPeers, meetsNoPoint_cons_iff]
      by_cases hkey : key = ourKey
      · rw [if_pos hkey, ih]
        simp [hkey]
      · rw [if_neg hkey]
        rcases fromHex_cases key with ⟨hpoint, hnot, peerId, hread⟩ | ⟨hnot, hpoint, hread⟩ |
          ⟨hpoint, hnot, error, hread⟩
        · have hdispatch : (modify (fun peer =>
              ((dispatch env (.pingPeer bucketId peerId)).run peer).state) :
                EStateM Fault (PeerState σ) Unit).run peer =
              .ok () ((dispatch env (.pingPeer bucketId peerId)).run peer).state := rfl
          rw [hread]
          dsimp only
          rw [runReturns_bind_iff_of_ok hdispatch, ih]
          simp [hpoint, hnot]
        · rw [hread]
          apply iff_of_false
          · simp [runReturns_throw_iff]
          · simp [hkey, hnot]
        · rw [hread]
          apply iff_of_true
          · simp [runReturns_throw_iff]
          · simp [hkey, hpoint, hnot]

variable [BucketLogProvider σ]

/-- `Peer::ping`. -/
def PeerState.ping (env : PeerEnv) (bucketId : Uuid) : EStateM Fault (PeerState σ) Unit := do
  let peer ← getThe (PeerState σ)
  match head peer.logs bucketId none with
  | .error error => throw (.error (.default
      ("Failed to get head for bucket " ++ bucketId.display ++ ": " ++ error.message)))
  | .ok (headLink, _) =>
      match (peer.world.blobs headLink.hash).bind P.decodeManifest with
      | none => throw (.error (.default "Failed to load manifest"))
      | some manifest =>
          pingPeers env bucketId (P.publicKey env.secretKey).toHex manifest.shareKeys

theorem runReturns_ping_iff (env : PeerEnv) (bucketId : Uuid) (peer : PeerState σ) :
    RunReturns (PeerState.ping env bucketId) peer ↔ ∀ headLink height manifest,
      head peer.logs bucketId none = .ok (headLink, height) →
      (peer.world.blobs headLink.hash).bind P.decodeManifest = some manifest →
      ¬ MeetsNoPoint (P.publicKey env.secretKey).toHex manifest.shareKeys := by
  unfold PeerState.ping
  have hget : (getThe (PeerState σ) : EStateM Fault (PeerState σ) _).run peer =
      .ok peer peer := rfl
  rw [runReturns_bind_iff_of_ok hget]
  cases hhead : head peer.logs bucketId none with
  | error error => simp [runReturns_throw_iff]
  | ok found =>
      obtain ⟨headLink, height⟩ := found
      dsimp only
      cases hread : (peer.world.blobs headLink.hash).bind P.decodeManifest with
      | none =>
          apply iff_of_true (runReturns_throw_iff.mpr ⟨_, rfl⟩)
          intro headLink' height' manifest hfound hmanifest
          cases hfound
          rw [hread] at hmanifest
          contradiction
      | some manifest =>
          dsimp only
          rw [runReturns_pingPeers_iff]
          constructor
          · intro hmeets headLink' height' manifest' hfound hmanifest
            cases hfound
            rw [hread] at hmanifest
            cases hmanifest
            exact hmeets
          · exact fun h => h headLink height manifest rfl hread

/-! ## Saves -/

omit [BucketLogProvider σ] in
/-- The loop of a save goes on after a key that does not parse. -/
theorem pingShares_cases (env : PeerEnv) (bucketId : Uuid) (keys : List Name)
    (state : PeerMount σ) :
    ((∀ key ∈ keys, ¬ EncodesNoPoint key) ∧ ∃ state',
      (pingShares env bucketId keys).run state = .ok () state') ∨
    ((¬ ∀ key ∈ keys, ¬ EncodesNoPoint key) ∧ ∃ state',
      (pingShares env bucketId keys).run state = .error .panic state') := by
  induction keys generalizing state with
  | nil => exact Or.inl ⟨(fun _ hkey => nomatch hkey), state, rfl⟩
  | cons key rest ih =>
      rw [List.forall_mem_cons, pingShares]
      rcases fromHex_cases key with ⟨-, hpoint, peerPublicKey, hread⟩ | ⟨hpoint, -, hread⟩ |
        ⟨-, hpoint, error, hread⟩
      · rw [hread, and_iff_right hpoint]
        dsimp only
        split_ifs
        · exact ih state
        · have hdispatch : (tryDispatch env (.pingPeer bucketId peerPublicKey)).run state =
              .ok () { state with peer := ((dispatch env
                (.pingPeer bucketId peerPublicKey)).run state.peer).state } := rfl
          rw [EStateM.run_bind_of_ok hdispatch]
          exact ih _
      · rw [hread]
        exact Or.inr ⟨fun h => h.1 hpoint, state, rfl⟩
      · rw [hread, and_iff_right hpoint]
        exact ih state

omit [BucketLogProvider σ] in
/-- New wrappings go to the principals that are there. -/
theorem contains_rewrapShares {secret : Secret} {pending : List (Name × Share)}
    {shares shares' : Shares} {world world' : World}
    (hpending : ∀ item ∈ pending, shares.contains item.1 = true)
    (hrun : (rewrapShares secret pending shares).run world = .ok shares' world') (key : Name) :
    shares'.contains key = true ↔ shares.contains key = true := by
  induction pending generalizing shares world with
  | nil =>
      cases hrun
      exact Iff.rfl
  | cons first rest ih =>
      obtain ⟨name, share⟩ := first
      obtain ⟨hname, hrest⟩ := List.forall_mem_cons.mp hpending
      rw [rewrapShares] at hrun
      split_ifs at hrun
      · obtain ⟨secretShare, middle, -, hrun⟩ := EStateM.run_bind_eq_ok_iff.mp hrun
        have hkept : ∀ key, (shares.put name (share.setShare secretShare)).contains key = true ↔
            shares.contains key = true := by
          intro key
          rw [FinMap.contains_put_iff]
          constructor
          · rintro (rfl | hkey)
            · exact hname
            · exact hkey
          · exact Or.inr
        rw [ih (fun item hitem => (hkept item.1).mpr (hrest item hitem)) hrun, hkept]
      · exact ih hrest hrun

omit [BucketLogProvider σ] in
theorem shareKeys_of_saveVersion {inner : MountInner} {publish : Bool} {world world' : World}
    {manifest : Manifest} {link : Link}
    (hrun : (saveVersion inner publish).run world = .ok (manifest, link) world') (key : Name) :
    key ∈ manifest.shareKeys ↔ key ∈ inner.manifest.shareKeys := by
  obtain ⟨_, _, _, _, _, _, _, _, _, _, -, -, -, -, hshares, -, hmanifest⟩ :=
    saveVersion_stages hrun
  have hkept := contains_rewrapShares
    (fun item hitem => KeyedMap.contains_iff.mpr ⟨item, hitem, rfl⟩) hshares key
  rw [mem_shareKeys_iff, mem_shareKeys_iff, hmanifest.shares, hkept]

/-- The version of the mount is stored, and the log takes it. -/
def Appended (publish : Bool) (state : PeerMount σ) : Prop :=
  ∃ link previousLink height mount,
    (save publish).run state.mount = .ok (link, previousLink, height) mount ∧
    (append state.peer.logs state.inner.manifest.id state.inner.manifest.name link
      (some previousLink) height mount.inner.manifest.isPublished).1 = .ok ()

theorem runReturns_save [LawfulPrimitives] (publish : Bool) (state : MountState) :
    RunReturns (save publish) state := by
  rcases saveVersion_cases state.inner publish state.world with
    ⟨-, result, world', hrun⟩ | ⟨-, world', hrun⟩
  · have hsave := run_onBlobs_of_ok hrun
    unfold save
    rw [runReturns_bind_iff_of_ok (show (getThe MountState : MountM _).run state =
      .ok state state from rfl), runReturns_bind_iff_of_ok hsave]
    exact runReturns_of_ok rfl
  · have hsave := run_onBlobs_of_error hrun
    unfold save
    rw [runReturns_bind_iff_of_ok (show (getThe MountState : MountM _).run state =
      .ok state state from rfl)]
    exact (runReturns_iff_of_error (EStateM.run_bind_of_error hsave)).mpr ⟨_, rfl⟩

theorem runReturns_saveMount_iff [LawfulPrimitives] (env : PeerEnv) (publish : Bool)
    (state : PeerMount σ) :
    RunReturns (saveMount env publish) state ↔ (Appended publish state →
      ∀ key ∈ state.inner.manifest.shareKeys, ¬ EncodesNoPoint key) := by
  cases hsave : (save publish).run state.mount with
  | error fault mount =>
      have hreturns := runReturns_save publish state.mount fault mount hsave
      have hrun : (saveMount env publish).run state = .error fault (state.setMount mount) := by
        unfold saveMount
        rw [run_getPeer_bind, EStateM.run_bind_of_error (run_onMount_of_error hsave)]
      apply iff_of_true ((runReturns_iff_of_error hrun).mpr hreturns)
      intro ⟨link, previousLink, height, mount', hsaved, _⟩
      rw [hsave] at hsaved
      contradiction
  | ok result mount =>
      obtain ⟨link, previousLink, height⟩ := result
      obtain ⟨manifest, world', hversion, -, hmount⟩ := run_save_eq_ok hsave
      have hkeys : ∀ key, key ∈ mount.inner.manifest.shareKeys ↔
          key ∈ state.inner.manifest.shareKeys := by
        rw [hmount]
        exact shareKeys_of_saveVersion hversion
      have hrest := @run_saveMount_of_save _ _ _ env publish state _ _ _ _ hsave
      unfold RunReturns
      rw [hrest]
      obtain ⟨logs, ⟨hverdict, happend⟩ | ⟨error, hverdict, happend⟩⟩ :=
        appendVersion_cases state.inner.manifest.id state.inner.manifest.name link
          previousLink height mount.inner.manifest.isPublished (state.setMount mount)
      · have happended : Appended publish state :=
          ⟨link, previousLink, height, mount, hsave, congrArg Prod.fst hverdict⟩
        rw [EStateM.run_bind_of_ok happend, forall_prop_of_true happended]
        simp only [← hkeys]
        rcases pingShares_cases env state.inner.manifest.id mount.inner.manifest.shareKeys
          { state.setMount mount with peer := { (state.setMount mount).peer with logs := logs } }
          with ⟨hpoints, state', hpings⟩ | ⟨hpoints, state', hpings⟩
        · apply iff_of_true _ hpoints
          rw [Manifest.shareKeys] at hpings
          rw [EStateM.run_bind_of_ok hpings]
          exact fun fault last hfault => nomatch hfault
        · apply iff_of_false _ hpoints
          rw [Manifest.shareKeys] at hpings
          rw [EStateM.run_bind_of_error hpings]
          intro hreturns
          obtain ⟨error, herror⟩ := hreturns .panic state' rfl
          contradiction
      · rw [EStateM.run_bind_of_error happend]
        apply iff_of_true
        · intro fault last hfault
          cases hfault
          exact ⟨_, rfl⟩
        · intro ⟨link', previousLink', height', mount', hsaved, haccepted⟩
          rw [hsave] at hsaved
          cases hsaved
          rw [show append state.peer.logs state.inner.manifest.id state.inner.manifest.name link
            (some previousLink) height mount.inner.manifest.isPublished = _ from hverdict]
            at haccepted
          contradiction

/-- Readings of keys, and those who read the keys of a manifest, return except at bytes that
are no point of the curve. -/
theorem key_parsing_returns_iff [LawfulPrimitives] :
    (∀ hex, ReadReturns (PublicKey.fromHex hex) ↔ ¬ EncodesNoPoint hex) ∧
    (∀ bytes, ReadReturns (PublicKey.tryFrom bytes) ↔
      ¬ (bytes.length = publicKeySize ∧ P.isPoint bytes = false)) ∧
    (∀ (share : SecretShare) secretKey, share.bytes.length = 72 →
      (ReadReturns (share.recover secretKey) ↔
        P.isPoint (share.bytes.take publicKeySize) = true)) ∧
    (∀ hex, (∃ key, PublicKey.fromHex hex = .ok key) ↔ EncodesPoint hex) ∧
    (∀ key, ValidKey key → PublicKey.fromHex key.toHex = .ok key) ∧
    (∀ manifest : Manifest, ReadReturns manifest.getPeerIds ↔
      ∀ key ∈ manifest.shareKeys, ¬ EncodesNoPoint key) ∧
    (∀ env bucketId (peer : PeerState σ), RunReturns (PeerState.ping env bucketId) peer ↔
      ∀ headLink height manifest, head peer.logs bucketId none = .ok (headLink, height) →
        (peer.world.blobs headLink.hash).bind P.decodeManifest = some manifest →
        ¬ MeetsNoPoint (P.publicKey env.secretKey).toHex manifest.shareKeys) ∧
    (∀ env publish (state : PeerMount σ), RunReturns (saveMount env publish) state ↔
      (Appended publish state →
        ∀ key ∈ state.inner.manifest.shareKeys, ¬ EncodesNoPoint key)) :=
  ⟨readReturns_fromHex_iff, readReturns_tryFrom_iff,
    fun _ secretKey hshare => readReturns_recover_iff hshare secretKey, exists_fromHex_iff,
    fun _ hkey => fromHex_toHex hkey, readReturns_getPeerIds_iff, runReturns_ping_iff,
    runReturns_saveMount_iff⟩

end

namespace Reference

/-! ## The curve of the keys -/

def powMod (modulus : ℕ) : ℕ → ℕ → ℕ → ℕ
  | 0, _, _ => 1
  | bits + 1, base, exponent =>
      let rest := powMod modulus bits (base * base % modulus) (exponent / 2)
      if exponent % 2 = 1 then base * rest % modulus else rest

def littleEndian : Bytes → ℕ
  | [] => 0
  | byte :: rest => byte.val + 256 * littleEndian rest

def fieldPrime : ℕ := 2 ^ 255 - 19

/-- The coefficient of the Edwards curve of Ed25519. -/
def edwardsD : ℕ :=
  37095705934669439343138083508754565189542113879843219016388785533085940283555

/-- Whether 32 bytes decompress to a point: the `y` coordinate is in the low 255 bits, and
`(y² - 1) / (d y² + 1)` has to be a square. -/
def isEdwardsPoint (bytes : Bytes) : Bool :=
  let y := littleEndian bytes % 2 ^ 255 % fieldPrime
  let u := (y * y + fieldPrime - 1) % fieldPrime
  let v := (edwardsD * y * y + 1) % fieldPrime
  bytes.length = 32 ∧
    (u = 0 ∨ powMod fieldPrime 255 (u * v % fieldPrime) ((fieldPrime - 1) / 2) = 1)

def somePoint : Bytes := List.replicate 32 1

def noPoint : Bytes := List.replicate 32 2

theorem isEdwardsPoint_somePoint : isEdwardsPoint somePoint = true := by decide +kernel

theorem isEdwardsPoint_noPoint : isEdwardsPoint noPoint = false := by decide +kernel

/-- The reference primitives over the curve.  A share starts with a fixed point. -/
@[reducible] def curvePrimitives : Primitives :=
  { primitives with
    isPoint := isEdwardsPoint
    newSecretShare := fun _ secret recipient =>
      if isEdwardsPoint recipient.bytes then
        some ⟨somePoint ++ (bytesCode.encode recipient.bytes ++ secret.bytes)⟩
      else none
    recover := fun share key =>
      (stripBytes (bytesCode.encode key.bytes) (share.bytes.drop 32)).map Secret.mk }

theorem isPoint_curvePrimitives (bytes : Bytes) :
    curvePrimitives.isPoint bytes = isEdwardsPoint bytes := rfl

theorem newSecretShare_curvePrimitives {entropy : Bytes} {secret : Secret} {key : PublicKey}
    {share : SecretShare} (h : curvePrimitives.newSecretShare entropy secret key = some share) :
    share.bytes = somePoint ++ (bytesCode.encode key.bytes ++ secret.bytes) := by
  change (if isEdwardsPoint key.bytes then
    some (⟨somePoint ++ (bytesCode.encode key.bytes ++ secret.bytes)⟩ : SecretShare)
      else none) = some share at h
  split_ifs at h
  cases h
  rfl

instance : @LawfulPrimitives curvePrimitives :=
  letI := curvePrimitives
  { hash_injective := LawfulPrimitives.hash_injective (P := primitives)
    length_blake3 := LawfulPrimitives.length_blake3 (P := primitives)
    length_random := LawfulPrimitives.length_random (P := primitives)
    aeadDecrypt_aeadEncrypt := LawfulPrimitives.aeadDecrypt_aeadEncrypt (P := primitives)
    isSome_newSecretShare := by
      intro entropy secret key _
      change (if isEdwardsPoint key.bytes then some _ else none).isSome =
        isEdwardsPoint key.bytes
      cases isEdwardsPoint key.bytes <;> rfl
    recover_newSecretShare := by
      intro entropy secret key share hshare
      have hbytes := newSecretShare_curvePrimitives hshare
      change (stripBytes (bytesCode.encode key.bytes) (share.bytes.drop 32)).map Secret.mk =
        some secret
      rw [hbytes, List.drop_left' (show somePoint.length = 32 from List.length_replicate)]
      exact congrArg (Option.map Secret.mk) (stripBytes_append _ _)
    isPoint_newSecretShare := by
      intro entropy secret key share hshare
      have hbytes := newSecretShare_curvePrimitives hshare
      change isEdwardsPoint (share.bytes.take 32) = true
      rw [hbytes, List.take_left' (show somePoint.length = 32 from List.length_replicate)]
      exact isEdwardsPoint_somePoint
    decode_encodeNode := LawfulPrimitives.decode_encodeNode (P := primitives)
    decode_encodeManifest := LawfulPrimitives.decode_encodeManifest (P := primitives)
    decode_encodeOperations := LawfulPrimitives.decode_encodeOperations (P := primitives) }

theorem point_returns :
    ReadReturns (SecretShare.recover (P := curvePrimitives) ⟨List.replicate 72 1⟩ alice) ∧
      PublicKey.fromHex (P := curvePrimitives) (hexEncode somePoint) = .ok ⟨somePoint⟩ := by
  obtain ⟨-, -, hrecover, -, hround, -⟩ :=
    @key_parsing_returns_iff curvePrimitives Database _ _
  have hshare : (⟨List.replicate 72 1⟩ : SecretShare).bytes.length = 72 :=
    List.length_replicate
  have hkey : (⟨List.replicate 72 1⟩ : SecretShare).bytes.take publicKeySize = somePoint := rfl
  have hpoint : curvePrimitives.isPoint somePoint = true :=
    (isPoint_curvePrimitives _).trans isEdwardsPoint_somePoint
  have hvalid := @ValidKey.mk curvePrimitives ⟨somePoint⟩ List.length_replicate hpoint
  refine ⟨(hrecover _ alice hshare).mpr ?_, hround _ hvalid⟩
  rw [hkey]
  exact hpoint

/-- A manifest whose only share is filed under 64 digits that are no key. -/
def hostileManifest : Manifest :=
  { genesis with
    shares := FinMap.put KeyedMap.empty (hexEncode noPoint) (Share.newMirror ⟨somePoint⟩) }

theorem noPoint_panics :
    PublicKey.fromHex (P := curvePrimitives) (hexEncode noPoint) = .error .panic ∧
      PublicKey.tryFrom (P := curvePrimitives) noPoint = .error .panic ∧
      SecretShare.recover (P := curvePrimitives) ⟨List.replicate 72 2⟩ alice =
        .error .panic ∧
      Manifest.getPeerIds (P := curvePrimitives) hostileManifest = .error .panic := by
  have hbytes : PublicKey.ofBytes (P := curvePrimitives) noPoint = .error .panic :=
    if_neg (Bool.not_eq_true _ ▸ isEdwardsPoint_noPoint)
  have hhex : PublicKey.fromHex (P := curvePrimitives) (hexEncode noPoint) = .error .panic :=
    (fromHex_hexEncode (P := curvePrimitives) List.length_replicate).trans hbytes
  refine ⟨hhex, (if_neg (not_not.mpr List.length_replicate)).trans hbytes, ?_, ?_⟩
  · unfold SecretShare.recover
    rw [show (⟨List.replicate 72 2⟩ : SecretShare).bytes.take publicKeySize = noPoint from rfl,
      hbytes]
  · change parsePeerIds (P := curvePrimitives) [hexEncode noPoint] = .error .panic
    unfold parsePeerIds
    rw [hhex]

end Reference

end JaxFs
