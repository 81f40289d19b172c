import JaxFs.Chunks
import JaxFs.MountSave
import JaxFs.ReferencePrimitives
import JaxFs.StoredVersion

/-!
# Lists of pins, byte by byte

A set of pins is stored as the digests of its members, 32 bytes each, one after the
other and in whatever order the set is iterated over.  Elsewhere a hash has no fixed
length and the members of a list are framed; here they are `Digest`s and the blob is
the one of the source.  A blob is a list exactly when 32 divides its length, it is
then the only encoding of that list, and the order is lost with the set.
-/

namespace JaxFs

namespace PinLists

/-- The size in bytes of a hash. -/
def hashSize : ℕ := 32

/-- A hash with the length that it has in the source. -/
abbrev Digest := { hash : Hash // hash.bytes.length = hashSize }

def Digest.asBytes (digest : Digest) : Bytes := digest.1.bytes

theorem Digest.length_asBytes (digest : Digest) : digest.asBytes.length = hashSize :=
  digest.2

/-- `BlobsStoreError`, as far as the functions here meet it. -/
inductive BlobsStoreError where
  | default (message : String)
  | exportBao
  deriving DecidableEq

/-- An error that is returned, or the panic of a copy between slices of different
lengths. -/
inductive ListFault where
  | error (error : BlobsStoreError)
  | panic
  deriving DecidableEq

/-- `From<BlobsStoreError> for MountError`. -/
def ListFault.toFault : ListFault → Fault
  | .error _ => .error .blobsStore
  | .panic => .panic

/-- `Hash::from_bytes` of a fresh array that `copy_from_slice` has filled. -/
def copyFromSlice (chunk : Bytes) : Except ListFault Digest :=
  if h : chunk.length = hashSize then .ok ⟨⟨chunk⟩, h⟩ else .error .panic

/-- `BlobsStore::get`. -/
def get (blobs : Blobs) (hash : Hash) : Except ListFault Bytes :=
  match blobs hash with
  | none => .error (.error .exportBao)
  | some data => .ok data

/-- The bytes that `create_hash_list` puts. -/
def hashListBytes (hashes : List Digest) : Bytes :=
  hashes.foldl (fun data hash => data ++ hash.asBytes) []

def createHashList [P : Primitives] (hashes : List Digest) : BlobM Hash :=
  put (hashListBytes hashes)

/-- What `read_hash_list` makes of a blob. -/
def parseHashList (data : Bytes) : Except ListFault (List Digest) :=
  if data.length % hashSize ≠ 0 then
    .error (.error (.default "Invalid hash list: length is not a multiple of 32"))
  else (Chunks.chunksExact hashSize data).mapM copyFromSlice

def readHashList (blobs : Blobs) (listHash : Hash) : Except ListFault (List Digest) := do
  let data ← get blobs listHash
  parseHashList data

/-! ## The format -/

theorem hashListBytes_eq_flatten (hashes : List Digest) :
    hashListBytes hashes = (hashes.map Digest.asBytes).flatten := by
  rw [hashListBytes, List.foldl_append_eq_append, List.nil_append]

theorem uniform_map_asBytes (hashes : List Digest) :
    Chunks.Uniform hashSize (hashes.map Digest.asBytes) := by
  intro chunk hchunk
  obtain ⟨digest, -, rfl⟩ := List.mem_map.mp hchunk
  exact digest.length_asBytes

/-- Chunks of the right size are digests. -/
theorem exists_map_asBytes {cs : List Bytes} (h : Chunks.Uniform hashSize cs) :
    ∃ hashes : List Digest, hashes.map Digest.asBytes = cs := by
  induction cs with
  | nil => exact ⟨[], rfl⟩
  | cons c cs ih =>
      obtain ⟨hc, hcs⟩ := Chunks.uniform_cons.mp h
      obtain ⟨hashes, hhashes⟩ := ih hcs
      exact ⟨⟨⟨c⟩, hc⟩ :: hashes, by rw [List.map_cons, hhashes]; rfl⟩

theorem copyFromSlice_asBytes (digest : Digest) :
    copyFromSlice digest.asBytes = .ok digest := by
  rw [copyFromSlice, dif_pos digest.length_asBytes]
  rfl

/-- No copy of the loop panics. -/
theorem mapM_copyFromSlice (hashes : List Digest) :
    (hashes.map Digest.asBytes).mapM copyFromSlice = .ok hashes := by
  induction hashes with
  | nil => rfl
  | cons digest hashes ih =>
      rw [List.map_cons, List.mapM_cons, copyFromSlice_asBytes, ih]
      rfl

theorem length_hashListBytes (hashes : List Digest) :
    (hashListBytes hashes).length = hashes.length * hashSize := by
  rw [hashListBytes_eq_flatten, Chunks.length_flatten (uniform_map_asBytes hashes),
    List.length_map]

theorem parseHashList_hashListBytes (hashes : List Digest) :
    parseHashList (hashListBytes hashes) = .ok hashes := by
  have hlength : ¬ (hashListBytes hashes).length % hashSize ≠ 0 := by
    rw [length_hashListBytes, Nat.mul_mod_left]
    exact fun h => h rfl
  rw [parseHashList, if_neg hlength, hashListBytes_eq_flatten,
    Chunks.chunksExact_flatten (by decide) (uniform_map_asBytes hashes),
    mapM_copyFromSlice]

/-- A blob whose length 32 divides is the encoding of a list. -/
theorem exists_hashListBytes {data : Bytes} (h : data.length % hashSize = 0) :
    ∃ hashes, hashListBytes hashes = data := by
  obtain ⟨hashes, hhashes⟩ := exists_map_asBytes (Chunks.uniform_chunksExact hashSize data)
  refine ⟨hashes, ?_⟩
  rw [hashListBytes_eq_flatten, hhashes, Chunks.flatten_chunksExact h]

/-- The encoding of a list is the only blob that is read as the list. -/
theorem parseHashList_eq_ok_iff {data : Bytes} {hashes : List Digest} :
    parseHashList data = .ok hashes ↔ hashListBytes hashes = data := by
  constructor
  · intro hparse
    have hlength : data.length % hashSize = 0 := by
      by_contra hlength
      rw [parseHashList, if_pos hlength] at hparse
      contradiction
    obtain ⟨found, rfl⟩ := exists_hashListBytes hlength
    rw [parseHashList_hashListBytes] at hparse
    cases hparse
    rfl
  · rintro rfl
    exact parseHashList_hashListBytes hashes

theorem exists_parseHashList_iff {data : Bytes} :
    (∃ hashes, parseHashList data = .ok hashes) ↔ data.length % hashSize = 0 := by
  constructor
  · rintro ⟨hashes, hparse⟩
    rw [← parseHashList_eq_ok_iff.mp hparse, length_hashListBytes, Nat.mul_mod_left]
  · intro hlength
    obtain ⟨hashes, hhashes⟩ := exists_hashListBytes hlength
    exact ⟨hashes, parseHashList_eq_ok_iff.mpr hhashes⟩

/-! ## The store -/

theorem readHashList_eq_ok_iff {blobs : Blobs} {listHash : Hash} {hashes : List Digest} :
    readHashList blobs listHash = .ok hashes ↔
      blobs listHash = some (hashListBytes hashes) := by
  unfold readHashList get
  cases blobs listHash with
  | none => simp [bind, Except.bind]
  | some data =>
      rw [Option.some_inj, eq_comm (a := data)]
      exact parseHashList_eq_ok_iff

theorem exists_readHashList_iff {blobs : Blobs} {listHash : Hash} :
    (∃ hashes, readHashList blobs listHash = .ok hashes) ↔
      ∃ data, blobs listHash = some data ∧ data.length % hashSize = 0 := by
  constructor
  · rintro ⟨hashes, hread⟩
    refine ⟨_, readHashList_eq_ok_iff.mp hread, ?_⟩
    rw [length_hashListBytes, Nat.mul_mod_left]
  · rintro ⟨data, hdata, hlength⟩
    obtain ⟨hashes, rfl⟩ := exists_hashListBytes hlength
    exact ⟨hashes, readHashList_eq_ok_iff.mpr hdata⟩

theorem parseHashList_of_length {data : Bytes} (h : data.length % hashSize ≠ 0) :
    parseHashList data =
      .error (.error (.default "Invalid hash list: length is not a multiple of 32")) :=
  if_pos h

theorem readHashList_ne_panic (blobs : Blobs) (listHash : Hash) :
    readHashList blobs listHash ≠ .error .panic := by
  unfold readHashList get
  cases blobs listHash with
  | none => simp [bind, Except.bind]
  | some data =>
      change parseHashList data ≠ _
      by_cases hlength : data.length % hashSize = 0
      · obtain ⟨hashes, hparse⟩ := exists_parseHashList_iff.mpr hlength
        rw [hparse]
        nofun
      · rw [parseHashList_of_length hlength]
        nofun

/-! ## Sets of pins -/

/-- `Pins`, with the length of its members. -/
structure DigestPins where
  pins : Pins
  length_bytes : ∀ hash ∈ pins, hash.bytes.length = hashSize
  deriving DecidableEq

instance : Membership Digest DigestPins := ⟨fun pins digest => digest.1 ∈ pins.pins⟩

theorem DigestPins.ext_mem {pins pins' : DigestPins}
    (h : ∀ digest : Digest, digest ∈ pins ↔ digest ∈ pins') : pins = pins' := by
  have hpins : pins.pins = pins'.pins := by
    apply KeyedMap.ext_mem
    intro hash
    constructor
    · intro hmem
      exact (h ⟨hash, pins.length_bytes hash hmem⟩).mp hmem
    · intro hmem
      exact (h ⟨hash, pins'.length_bytes hash hmem⟩).mpr hmem
  cases pins
  cases pins'
  cases hpins
  rfl

theorem mem_pins_fromVec {hashes : List Digest} {hash : Hash} :
    hash ∈ Pins.fromVec (hashes.map Subtype.val) ↔ ∃ digest ∈ hashes, digest.1 = hash := by
  rw [Pins.fromVec, Pins.mem_extend, List.mem_map]
  simp

def DigestPins.fromVec (hashes : List Digest) : DigestPins where
  pins := Pins.fromVec (hashes.map Subtype.val)
  length_bytes hash hmem := by
    obtain ⟨digest, -, rfl⟩ := mem_pins_fromVec.mp hmem
    exact digest.2

theorem DigestPins.mem_fromVec {hashes : List Digest} {digest : Digest} :
    digest ∈ fromVec hashes ↔ digest ∈ hashes := by
  constructor
  · intro hmem
    obtain ⟨found, hfound, heq⟩ := mem_pins_fromVec.mp hmem
    exact Subtype.ext heq ▸ hfound
  · intro hmem
    exact mem_pins_fromVec.mpr ⟨digest, hmem, rfl⟩

/-- A run of `iter` over the set: every member once, in some order. -/
structure Iteration (pins : DigestPins) where
  hashes : List Digest
  nodup : hashes.Nodup
  mem_hashes : ∀ digest, digest ∈ hashes ↔ digest ∈ pins

theorem Iteration.fromVec_hashes {pins : DigestPins} (order : Iteration pins) :
    DigestPins.fromVec order.hashes = pins := by
  apply DigestPins.ext_mem
  intro digest
  rw [DigestPins.mem_fromVec, order.mem_hashes]

theorem Iteration.perm {pins : DigestPins} (order : Iteration pins) :
    (order.hashes.map Subtype.val).Perm pins.pins.toList := by
  have hnodup : (order.hashes.map Subtype.val).Nodup :=
    order.nodup.map Subtype.val_injective
  rw [List.perm_ext_iff_of_nodup hnodup pins.pins.nodup_toList]
  intro hash
  constructor
  · intro hmem
    obtain ⟨digest, hdigest, rfl⟩ := List.mem_map.mp hmem
    exact (order.mem_hashes digest).mp hdigest
  · intro hmem
    have hdigest := (order.mem_hashes ⟨hash, pins.length_bytes hash hmem⟩).mpr hmem
    exact List.mem_map_of_mem hdigest

/-- The order of the members that the other modules iterate in. -/
def DigestPins.toVec (pins : DigestPins) : Iteration pins where
  hashes := pins.pins.toList.attach.map (fun hash =>
    ⟨hash.1, pins.length_bytes hash.1 hash.2⟩)
  nodup := by
    apply List.Nodup.of_map Subtype.val
    rw [List.map_map]
    exact (List.attach_map_subtype_val pins.pins.toList).symm ▸ pins.pins.nodup_toList
  mem_hashes digest := by
    constructor
    · intro hmem
      obtain ⟨hash, -, rfl⟩ := List.mem_map.mp hmem
      exact hash.2
    · intro hmem
      exact List.mem_map.mpr ⟨⟨digest.1, hmem⟩, List.mem_attach _ _, rfl⟩

/-- The size of the blob does not depend on the order. -/
theorem Iteration.length_hashListBytes {pins : DigestPins} (order : Iteration pins) :
    (hashListBytes order.hashes).length = pins.pins.toList.length * hashSize := by
  rw [PinLists.length_hashListBytes, ← order.perm.length_eq, List.length_map]

section

variable [P : Primitives]

/-- `_put_pins_in_blobs`, for the order in which `iter` gives the pins. -/
def putPinsInBlobs {pins : DigestPins} (order : Iteration pins) : BlobM Link := do
  let hash ← createHashList order.hashes
  pure ⟨ldRawCodec, hash⟩

/-- `_get_pins_from_blobs`, with the answer of `stat` before the list is read. -/
def getPinsFromBlobs (blobs : Blobs) (link : Link) : Except Fault DigestPins :=
  match blobs link.hash with
  | none => .error (.error (.linkNotFound link))
  | some _ =>
      ((readHashList blobs link.hash).mapError ListFault.toFault).map DigestPins.fromVec

omit P in
theorem getPinsFromBlobs_of_readHashList {blobs : Blobs} {link : Link}
    {hashes : List Digest} (hread : readHashList blobs link.hash = .ok hashes) :
    getPinsFromBlobs blobs link = .ok (DigestPins.fromVec hashes) := by
  unfold getPinsFromBlobs
  rw [readHashList_eq_ok_iff.mp hread, hread]
  rfl

theorem run_createHashList (hashes : List Digest) (world : World) :
    (createHashList hashes).run world =
      .ok (P.hash (hashListBytes hashes)) (world.store (hashListBytes hashes)) := rfl

theorem readHashList_store (hashes : List Digest) (world : World) :
    readHashList (world.store (hashListBytes hashes)).blobs
      (P.hash (hashListBytes hashes)) = .ok hashes := by
  rw [readHashList_eq_ok_iff, World.blobs_store, Function.update_self]

omit P in
theorem readHashList_of_keepsBlob {blobs blobs' : Blobs} {listHash : Hash}
    {hashes : List Digest} (hkeeps : KeepsBlob blobs blobs' listHash)
    (hread : readHashList blobs listHash = .ok hashes) :
    readHashList blobs' listHash = .ok hashes :=
  readHashList_eq_ok_iff.mpr (hkeeps _ (readHashList_eq_ok_iff.mp hread))

/-- Storing again what is stored changes nothing. -/
theorem store_of_blobs_eq {world : World} {data : Bytes}
    (h : world.blobs (P.hash data) = some data) : world.store data = world := by
  have hblobs : Function.update world.blobs (P.hash data) (some data) = world.blobs := by
    rw [← h, Function.update_eq_self]
  obtain ⟨blobs, rng, addressed⟩ := world
  simpa [World.store] using hblobs

/-- A list that has been read is stored under its own address again. -/
theorem createHashList_of_readHashList {world : World} {listHash : Hash}
    {hashes : List Digest} (hread : readHashList world.blobs listHash = .ok hashes) :
    (createHashList hashes).run world = .ok listHash world := by
  have hblob := readHashList_eq_ok_iff.mp hread
  have haddress : P.hash (hashListBytes hashes) = listHash :=
    world.addressed listHash _ hblob
  have hstore : world.store (hashListBytes hashes) = world :=
    store_of_blobs_eq (haddress.symm ▸ hblob)
  rw [run_createHashList, haddress, hstore]

/-- The pins come back from every store that still has their list. -/
theorem exists_putPinsInBlobs {pins : DigestPins} (order : Iteration pins) (world : World) :
    ∃ link world', (putPinsInBlobs order).run world = .ok link world' ∧
      ∀ blobs, KeepsBlob world'.blobs blobs link.hash →
        (readHashList blobs link.hash).map DigestPins.fromVec = .ok pins ∧
          getPinsFromBlobs blobs link = .ok pins := by
  refine ⟨_, _, rfl, ?_⟩
  intro blobs hkeeps
  have hread := readHashList_of_keepsBlob hkeeps (readHashList_store order.hashes world)
  rw [getPinsFromBlobs_of_readHashList hread, hread, order.fromVec_hashes]
  exact ⟨congrArg Except.ok order.fromVec_hashes, rfl⟩

/-- The framed lists of the other modules are read back as these are. -/
theorem map_getPinsFromBlobs {pins : DigestPins} (order : Iteration pins)
    {world world' world'' : World} {link link' : Link}
    (hrun : (putPinsInBlobs order).run world = .ok link world')
    (hframed : (JaxFs.putPinsInBlobs pins.pins).run world = .ok link' world'') :
    (getPinsFromBlobs world'.blobs link).map DigestPins.pins =
      JaxFs.getPinsFromBlobs world''.blobs link' := by
  obtain ⟨found, store, hput, hread⟩ := exists_putPinsInBlobs order world
  rw [hput] at hrun
  cases hrun
  rw [(hread _ (fun _ h => h)).2, getPinsFromBlobs_of_putPinsInBlobs hframed]
  rfl

/-- The list of a set of pins gives the set back in whatever order it was written and
wherever it is kept.  A blob is read exactly when 32 divides its length, and what has
been read from it encodes to it and is stored again under its address. -/
theorem pin_lists_round_trip :
    (∀ (pins : DigestPins) (order : Iteration pins) (world : World),
      ∃ link world', (putPinsInBlobs order).run world = .ok link world' ∧
        ∀ blobs, KeepsBlob world'.blobs blobs link.hash →
          (readHashList blobs link.hash).map DigestPins.fromVec = .ok pins ∧
            getPinsFromBlobs blobs link = .ok pins) ∧
    (∀ (blobs : Blobs) (listHash : Hash) (data : Bytes), blobs listHash = some data →
      ((∃ hashes, readHashList blobs listHash = .ok hashes) ↔
          data.length % hashSize = 0) ∧
        ∀ hashes, readHashList blobs listHash = .ok hashes → hashListBytes hashes = data) ∧
    ∀ (world : World) (listHash : Hash) (hashes : List Digest),
      readHashList world.blobs listHash = .ok hashes →
        (createHashList hashes).run world = .ok listHash world := by
  refine ⟨fun pins order world => exists_putPinsInBlobs order world, ?_, ?_⟩
  · intro blobs listHash data hdata
    constructor
    · rw [exists_readHashList_iff]
      simp [hdata]
    · intro hashes hread
      rw [readHashList_eq_ok_iff, hdata] at hread
      exact (Option.some.inj hread).symm
  · intro world listHash hashes hread
    exact createHashList_of_readHashList hread

end

/-! ## Two pins -/

section

open Reference

def firstDigest : Digest := ⟨⟨List.replicate 32 1⟩, rfl⟩

def secondDigest : Digest := ⟨⟨List.replicate 32 2⟩, rfl⟩

def twoPins : DigestPins := DigestPins.fromVec [firstDigest, secondDigest]

/-- An order that is not the one of `toVec`. -/
def backwards : Iteration twoPins where
  hashes := [secondDigest, firstDigest]
  nodup := by decide
  mem_hashes digest := by
    rw [twoPins, DigestPins.mem_fromVec]
    simp [or_comm]

def twoPinsBlob : Bytes := List.replicate 32 2 ++ List.replicate 32 1

theorem pin_lists_round_trip_two_pins :
    (∃ link world', (putPinsInBlobs backwards).run emptyWorld = .ok link world' ∧
      getPinsFromBlobs world'.blobs link = .ok twoPins) ∧
    (∃ hashes, readHashList (emptyWorld.store twoPinsBlob).blobs
      (primitives.hash twoPinsBlob) = .ok hashes) ∧
    hashListBytes [secondDigest, firstDigest] = twoPinsBlob ∧
    (createHashList [secondDigest, firstDigest]).run (emptyWorld.store twoPinsBlob) =
      .ok (primitives.hash twoPinsBlob) (emptyWorld.store twoPinsBlob) := by
  have hdata : (emptyWorld.store twoPinsBlob).blobs (primitives.hash twoPinsBlob) =
      some twoPinsBlob := by
    rw [World.blobs_store, Function.update_self]
  have hread : readHashList (emptyWorld.store twoPinsBlob).blobs
      (primitives.hash twoPinsBlob) = .ok [secondDigest, firstDigest] :=
    readHashList_eq_ok_iff.mpr hdata
  obtain ⟨hpins, hblobs, hworlds⟩ := pin_lists_round_trip (P := primitives)
  obtain ⟨link, world', hrun, hlater⟩ := hpins twoPins backwards emptyWorld
  obtain ⟨hlength, hbytes⟩ := hblobs _ _ _ hdata
  exact ⟨⟨link, world', hrun, (hlater _ (fun _ h => h)).2⟩, hlength.mpr rfl,
    hbytes _ hread, hworlds _ _ _ hread⟩

end

end PinLists

end JaxFs
