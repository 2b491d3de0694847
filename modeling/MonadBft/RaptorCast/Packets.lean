import Mathlib.Algebra.Order.Ring.Int
import MonadBft.Merkle
import MonadBft.RaptorCast.Groups

/-! # RaptorCast packets

`build_messages` and `parse_message` of `monad-raptorcast`: a message is encoded into symbols, each symbol is a packet
for one recipient, and every 32 packets are signed together through a Merkle tree. A panic of `build_messages` is
`none`. Hashes and signatures are parameters, and so is the content of the encoded symbols.
-/

namespace MonadBft.Packets

/-! ## Bytes -/

def leBytes : Nat → Nat → Bytes
  | 0, _ => []
  | width + 1, n => n % 256 :: leBytes width (n / 256)

def ofLeBytes : Bytes → Nat
  | [] => 0
  | b :: rest => b + 256 * ofLeBytes rest

abbrev Digest := { b : Bytes // b.length = 32 }

/-- The first 20 bytes of a hash: `MerkleHash`, `NodeIdHash` and `AppMessageHash`. -/
abbrev Hash20 := { b : Bytes // b.length = 20 }

def truncate (hash : Digest) : Hash20 := ⟨hash.1.take 20, by simp [hash.2]⟩

def signatureSize : Nat := 65

/-- The hash, the keys and the signatures; `sign` is with the key of a node. -/
structure Scheme (Sig : Type) where
  hash : Bytes → Digest
  pubkeyBytes : NodeId → Bytes
  sign : NodeId → Bytes → Sig
  serialize : Sig → Bytes
  deserialize : Bytes → Option Sig
  recoverPubkey : Sig → Bytes → Option NodeId

variable {Sig Addr : Type}

namespace Scheme

def merkle (scheme : Scheme Sig) : Merkle.MerkleHasher Digest Hash20 :=
  ⟨truncate, fun a b => truncate (scheme.hash (a.1 ++ b.1)), ⟨List.replicate 20 0, by simp⟩⟩

def computeHash (scheme : Scheme Sig) (id : NodeId) : Hash20 := truncate (scheme.hash (scheme.pubkeyBytes id))

/-- Signatures have their size and give their signer back. -/
structure Ideal (scheme : Scheme Sig) : Prop where
  length : ∀ s, (scheme.serialize s).length = signatureSize
  deserialize : ∀ s, scheme.deserialize (scheme.serialize s) = some s
  recover : ∀ id message, scheme.recoverPubkey (scheme.sign id message) message = some id

end Scheme

def headerLen : Nat := signatureSize + 2 + 1 + 8 + 8 + 20 + 4
def chunkHeaderLen : Nat := 20 + 1 + 1 + 2
def maxNumPackets : Nat := 65535
def sourceSymbolsMin : Nat := 1
def sourceSymbolsMax : Nat := 8192
def maxTriples : Nat := 65521
def treeDepth : Nat := 6
def chunksPerMerkleBatch : Nat := 2 ^ (treeDepth - 1)
def proofSize : Nat := 20 * (treeDepth - 1)

/-- A fixed-point number with 11 fractional bits. -/
structure Redundancy where
  bits : UInt16

def Redundancy.scale (redundancy : Redundancy) (base : Nat) : Option Nat :=
  if (2 ^ 64 - 1) / (2 ^ 16 - 1) < base then none
  else if 2 ^ 64 ≤ redundancy.bits.toNat * base then none
  else some ((redundancy.bits.toNat * base + (2 ^ 11 - 1)) / 2 ^ 11)

/-- `iter_skip_self_and_author`, all that the iterator yields; the peers are distinct, so there is one place to find. -/
def iterSkipSelfAndAuthor (group : Group) (author : NodeId) (seed : Nat) : List NodeId :=
  let peers := group.sortedOtherPeers
  let yields (authorIx : Option Nat) := (List.range peers.length).filterMap fun consumed =>
    let index := (consumed + seed % peers.length) % peers.length
    if authorIx = some index then none else peers[index]?
  match group.validatorId with
  | some root => if author ≠ root then [] else yields none
  | none =>
    match peers.findIdx? (· = author) with
    | none => []
    | some ix => yields (some ix)

inductive BuildTarget where
  | broadcast (nodes : List NodeId)
  | raptorcast (validators : List (NodeId × Stake))
  | pointToPoint (dest : NodeId)
  | fullNodeRaptorCast (group : Group)

def BuildTarget.isRaptorBroadcast : BuildTarget → Bool
  | .raptorcast _ | .fullNodeRaptorCast _ => true
  | .broadcast _ | .pointToPoint _ => false

structure BuildArgs (Sig Addr : Type) where
  scheme : Scheme Sig
  /-- Of the key that signs. -/
  selfId : NodeId
  segmentSize : UInt16
  appMessage : Bytes
  redundancy : Redundancy
  epochNo : UInt64
  unixTsMs : UInt64
  buildTarget : BuildTarget
  knownAddresses : NodeId → Option Addr
  /-- `rand::random`. -/
  seed : Nat
  shuffle : List (NodeId × Stake) → List (NodeId × Stake)
  /-- `(num_packets as f64 * (running_stake / total_stake)) as usize`. -/
  portion : Nat → Stake → Stake → Nat
  /-- What `encode_symbol` leaves in a buffer of a size, for the id of a symbol. -/
  symbol : (size : Nat) → Nat → { b : Bytes // b.length = size }

inductive Dropped where
  | emptyMessage
  | zeroRedundancy
  | tooManyPackets
  | addressUnknown
  | zeroStake
  | noEncoder

/-- The packets from `start` and before `stop` are for a node. -/
structure Span where
  nodeId : NodeId
  start : Nat
  stop : Nat
deriving DecidableEq

abbrev Slots := List (Option (NodeId × Nat))

structure Chunk where
  recipient : Hash20
  chunkId : Nat
  payload : Bytes

structure Message where
  packets : List Bytes
  spans : List Span

/-! ## Building -/

def numSourceSymbols (length dataSize : Nat) : Nat := max ((length + (dataSize - 1)) / dataSize) sourceSymbolsMin

namespace BuildArgs

variable (args : BuildArgs Sig Addr)

def dataSize : Option Nat :=
  if args.segmentSize.toNat < headerLen + chunkHeaderLen then none
  else if args.segmentSize.toNat - (headerLen + chunkHeaderLen) < proofSize then none
  else some (args.segmentSize.toNat - (headerLen + chunkHeaderLen) - proofSize)

/-- `div_ceil` panics without room for data. -/
def countPackets (appMessageLen dataSize : Nat) : Option Nat := do
  let base ← if dataSize = 0 then none else some (numSourceSymbols appMessageLen dataSize)
  let scaled ← args.redundancy.scale base
  match args.buildTarget with
  | .broadcast nodes => if 2 ^ 64 ≤ scaled * nodes.length then none else some (scaled * nodes.length)
  | _ => some scaled

/-- Give the chunks from `start` and before `stop` to a node, with ids from `first` on. -/
def assignRange (slots : Slots) (nodeId : NodeId) (start stop first : Nat) : Option Slots :=
  if start ≤ stop ∧ stop ≤ slots.length then
    some (slots.take start ++ (List.range (stop - start)).map (fun i => some (nodeId, (first + i) % 2 ^ 16)) ++
      slots.drop stop)
  else none

/-- The loop over recipients: `bound` are the ends of their ranges; the ids start again for each of them, or go on. -/
def assignBetween (bound : Nat → Nat) (restart : Bool) :
    List NodeId → Nat → Nat → Slots → List Span → Option (Slots × List Span)
  | [], _, _, slots, spans => some (slots, spans)
  | nodeId :: rest, count, chunkIdx, slots, spans =>
    let start := bound count
    let stop := bound (count + 1)
    if start = stop then assignBetween bound restart rest (count + 1) chunkIdx slots spans
    else do
      let slots ← assignRange slots nodeId start stop (if restart then 0 else chunkIdx)
      assignBetween bound restart rest (count + 1) (chunkIdx + (stop - start)) slots (spans ++ [⟨nodeId, start, stop⟩])

def assign (numPackets : Nat) : Option (Except Dropped (Slots × List Span)) :=
  let empty : Slots := List.replicate numPackets none
  match args.buildTarget with
  | .pointToPoint dest =>
    match args.knownAddresses dest with
    | none => some (.error .addressUnknown)
    | some _ => some (.ok ((List.range numPackets).map fun i => some (dest, i % 2 ^ 16), [⟨dest, 0, numPackets⟩]))
  | .broadcast nodes =>
    (assignBetween (fun k => numPackets * k / nodes.length) true nodes 0 0 empty []).map .ok
  | .raptorcast validators =>
    let total := (validators.map (·.2)).sum
    -- The source asserts that there is a validator, and drops the message where none has stake.
    if validators = [] then none
    else if total = 0 then some (.error .zeroStake)
    else
      let order := args.shuffle validators
      (assignBetween (fun k => args.portion numPackets ((order.take k).map (·.2)).sum total) false (order.map (·.1)) 0 0
        empty []).map .ok
  | .fullNodeRaptorCast group =>
    -- The shares are those of all other peers, also where the author is among them and is skipped.
    (assignBetween (fun k => numPackets * k / group.sortedOtherPeers.length) false
      (iterSkipSelfAndAuthor group args.selfId args.seed) 0 0 empty []).map .ok

/-- `encode_symbol`; there are triples for the first symbols only. -/
def encodeSymbol (dataSize id : Nat) : Option Bytes :=
  if id < maxTriples then some (args.symbol dataSize id).1 else none

def chunk (dataSize : Nat) (slot : Option (NodeId × Nat)) : Option Chunk := do
  let (nodeId, id) ← slot
  let payload ← args.encodeSymbol dataSize id
  some ⟨args.scheme.computeHash nodeId, id, payload⟩

/-- What the leaf of a chunk is the hash of. -/
def body (chunk : Chunk) (leafIdx : Nat) : Bytes :=
  chunk.recipient.1 ++ ([leafIdx] ++ ([0] ++ (leBytes 2 chunk.chunkId ++ chunk.payload)))

/-- The header after the signature. -/
def fields (appMessageLen : Nat) : Bytes :=
  leBytes 2 0 ++ ([(if args.buildTarget.isRaptorBroadcast then 128 else 0) + treeDepth] ++
    (leBytes 8 args.epochNo.toNat ++
    (leBytes 8 args.unixTsMs.toNat ++ ((truncate (args.scheme.hash args.appMessage)).1 ++ leBytes 4 appMessageLen))))

/-- The place for the proof is filled from the left. -/
def proofSlots (siblings : List Hash20) : Bytes :=
  siblings.flatMap (·.1) ++ List.replicate (proofSize - 20 * siblings.length) 0

def packet (tree : Merkle.MerkleTree Hash20) (header : Bytes) (chunk : Chunk) (leafIdx : Nat) : Option Bytes :=
  if small : leafIdx < 256 then do
    let proof ← tree.proof ⟨leafIdx, small⟩
    some (header ++ (proofSlots proof.siblings ++ body chunk leafIdx))
  else none

def signBatch (appMessageLen : Nat) (chunks : List Chunk) : Option (List Bytes) := do
  let leaves := chunks.zipIdx.map fun e => args.scheme.hash (body e.1 e.2)
  let tree ← Merkle.MerkleTree.newWithDepth args.scheme.merkle leaves treeDepth
  let root ← tree.root
  let signature := args.scheme.serialize (args.scheme.sign args.selfId (args.fields appMessageLen ++ root.1))
  if signature.length ≠ signatureSize then none
  else chunks.zipIdx.mapM fun e => packet tree (signature ++ args.fields appMessageLen) e.1 e.2

def signAll (appMessageLen : Nat) : Nat → List Chunk → Option (List Bytes)
  | 0, _ => none
  | _ + 1, [] => some []
  | fuel + 1, chunk :: rest => do
    let batch ← args.signBatch appMessageLen ((chunk :: rest).take chunksPerMerkleBatch)
    let later ← signAll appMessageLen fuel ((chunk :: rest).drop chunksPerMerkleBatch)
    some (batch ++ later)

/-- The chunks are encoded and signed; `Encoder::new` wants a number of source symbols in its range. -/
def encode (appMessageLen dataSize : Nat) (slots : Slots) (spans : List Span) : Option (Except Dropped Message) :=
  if sourceSymbolsMax < numSourceSymbols args.appMessage.length dataSize then some (.error .noEncoder)
  else do
    let chunks ← slots.mapM (args.chunk dataSize)
    let packets ← args.signAll appMessageLen (chunks.length + 1) chunks
    some (.ok ⟨packets, spans⟩)

def buildMessagesWithLength (appMessageLen : Nat) : Option (Except Dropped Message) :=
  if appMessageLen = 0 then some (.error .emptyMessage)
  else if args.redundancy.bits = 0 then some (.error .zeroRedundancy)
  else do
    let dataSize ← args.dataSize
    let numPackets ← args.countPackets appMessageLen dataSize
    if maxNumPackets < numPackets then some (.error .tooManyPackets)
    else
      match ← args.assign numPackets with
      | .error dropped => some (.error dropped)
      | .ok (slots, spans) => args.encode appMessageLen dataSize slots spans

def buildMessages : Option (Except Dropped Message) :=
  if 2 ^ 32 ≤ args.appMessage.length then none else args.buildMessagesWithLength args.appMessage.length

end BuildArgs

/-! ## Parsing -/

def minMerkleTreeDepth : Nat := 1
def maxMerkleTreeDepth : Nat := 9

inductive MessageValidationError where
  | unknownVersion
  | tooShort
  | invalidSignature
  | invalidTreeDepth
  | invalidMerkleProof
  | invalidTimestamp (timestamp max : Nat) (delta : Int)

structure ValidatedMessage where
  message : Bytes
  author : NodeId
  epoch : Nat
  unixTsMs : Nat
  appMessageHash : Bytes
  appMessageLen : Nat
  broadcast : Bool
  recipientHash : Bytes
  chunkId : Nat
  chunk : Bytes

/-- The signer of a header and a root; they start with the signature. -/
def recoverAuthor (scheme : Scheme Sig) (signedOver : Bytes) : Option NodeId := do
  let signature ← scheme.deserialize (signedOver.take signatureSize)
  scheme.recoverPubkey signature (signedOver.drop signatureSize)

/-- Signers that were recovered before. -/
structure SignatureCache (scheme : Scheme Sig) where
  get : Bytes → Option NodeId
  recovered : ∀ signedOver author, get signedOver = some author → recoverAuthor scheme signedOver = some author

def SignatureCache.insert {scheme : Scheme Sig} (cache : SignatureCache scheme) (signedOver : Bytes) (author : NodeId)
    (isAuthor : recoverAuthor scheme signedOver = some author) : SignatureCache scheme where
  get other := if other = signedOver then some author else cache.get other
  recovered other found known := by
    split at known
    next same => rw [same, isAuthor, ← known]
    next => exact cache.recovered other found known

def SignatureCache.tryGetOrInsert {scheme : Scheme Sig} (cache : SignatureCache scheme) (signedOver : Bytes) :
    Except MessageValidationError (NodeId × SignatureCache scheme) :=
  match cache.get signedOver with
  | some author => .ok (author, cache)
  | none =>
    match isAuthor : recoverAuthor scheme signedOver with
    | some author => .ok (author, cache.insert signedOver author isAuthor)
    | none => .error .invalidSignature

def asI64 (n : UInt64) : Int := if n.toNat < 2 ^ 63 then n.toNat else n.toNat - 2 ^ 64

/-- `now` is `none` before the epoch. -/
def ensureValidTimestamp (now : Option UInt64) (unixTsMs maxAgeMs : Nat) : Except MessageValidationError Unit :=
  match now with
  | none => .ok ()
  | some currentTimeMs =>
    let delta := max (-2 ^ 63) (min (2 ^ 63 - 1) (asI64 currentTimeMs - asI64 (UInt64.ofNat unixTsMs)))
    if maxAgeMs < delta.natAbs then .error (.invalidTimestamp unixTsMs maxAgeMs delta) else .ok ()

def splitOff (mid : Nat) (cursor : Bytes) : Except MessageValidationError (Bytes × Bytes) :=
  if cursor.length < mid then .error .tooShort else .ok (cursor.take mid, cursor.drop mid)

def ensure (condition : Bool) (error : MessageValidationError) : Except MessageValidationError Unit :=
  if condition then .ok () else .error error

def okOr {α : Type} (value : Option α) (error : MessageValidationError) : Except MessageValidationError α :=
  match value with
  | some value => .ok value
  | none => .error error

def takeSiblings : Nat → Bytes → Except MessageValidationError (List Hash20 × Bytes)
  | 0, cursor => .ok ([], cursor)
  | n + 1, cursor => do
    let (sibling, cursor) ← splitOff 20 cursor
    if length : sibling.length = 20 then
      let (siblings, cursor) ← takeSiblings n cursor
      .ok (⟨sibling, length⟩ :: siblings, cursor)
    else .error .tooShort

def leafProof (siblings : List Hash20) (leafIdx : Nat) : Option (Merkle.MerkleProof Hash20) :=
  if small : leafIdx < 256 then Merkle.MerkleProof.newFromLeafIdx siblings ⟨leafIdx, small⟩ else none

def parseMessage {scheme : Scheme Sig} (signatureCache : SignatureCache scheme) (now : Option UInt64) (message : Bytes)
    (maxAgeMs : Nat) : Except MessageValidationError (ValidatedMessage × SignatureCache scheme) := do
  let (signature, cursor) ← splitOff signatureSize message
  let _ ← okOr (scheme.deserialize signature) .invalidSignature
  let (version, cursor) ← splitOff 2 cursor
  ensure (ofLeBytes version = 0) .unknownVersion
  let (flags, cursor) ← splitOff 1 cursor
  let broadcast : Bool := flags.headD 0 / 2 ^ 7 ≠ 0
  let treeDepth := flags.headD 0 % 2 ^ 7
  ensure (minMerkleTreeDepth ≤ treeDepth ∧ treeDepth ≤ maxMerkleTreeDepth) .invalidTreeDepth
  let (epoch, cursor) ← splitOff 8 cursor
  let (unixTsMs, cursor) ← splitOff 8 cursor
  ensureValidTimestamp now (ofLeBytes unixTsMs) maxAgeMs
  let (appMessageHash, cursor) ← splitOff 20 cursor
  let (appMessageLen, cursor) ← splitOff 4 cursor
  let (siblings, cursor) ← takeSiblings (treeDepth - 1) cursor
  let (recipientHash, cursor) ← splitOff 20 cursor
  let (leafIdx, cursor) ← splitOff 1 cursor
  let proof ← okOr (leafProof siblings (leafIdx.headD 0)) .invalidMerkleProof
  -- A reserved byte.
  let (_, cursor) ← splitOff 1 cursor
  let (chunkId, payload) ← splitOff 2 cursor
  ensure (payload ≠ []) .tooShort
  -- The leaf is all that follows the proof, the recipient and the leaf's index included.
  let leafHash := scheme.hash (message.drop (headerLen + 20 * (treeDepth - 1)))
  let root ← okOr (proof.computeRoot scheme.merkle leafHash) .invalidMerkleProof
  let (author, signatureCache) ← signatureCache.tryGetOrInsert (message.take headerLen ++ root.1)
  .ok (⟨message, author, ofLeBytes epoch, ofLeBytes unixTsMs, appMessageHash, ofLeBytes appMessageLen, broadcast,
    recipientHash, ofLeBytes chunkId, payload⟩, signatureCache)

end MonadBft.Packets
