import MonadBft.Statesync.Outbound

/-! # Responses are handed out in order, and no request is lost

Runs of calls on `OutboundRequests`, with what each call returned. The chunks that an
attempt has handed out are the indices from zero on, from one peer. They carry one nonce as
long as the chunk that is due carries the nonce of those before it: the code compares nonces
only with the chunks that wait for their turn.
-/

namespace MonadBft

open SortedMap List

inductive OutboundCall where
  | queueRequest (request : StateSyncRequest)
  | poll (now rng : Nat)
  | handleResponse (now : Nat) (sender : NodeId) (response : StateSyncResponse)
  | handleBadVersion (sender : NodeId) (badVersion : StateSyncBadVersion)

inductive OutboundReply where
  | none
  | polled (result : RequestPollResult)
  | handedOut (responses : List StateSyncResponse)

namespace OutboundReply

def responses : OutboundReply → List StateSyncResponse
  | handedOut responses => responses
  | _ => []

def sent : OutboundReply → Option StateSyncRequest
  | polled (.request _ request) => some request
  | _ => Option.none

end OutboundReply

/-! ## Taking chunks from the queue -/

namespace InFlightRequest

theorem consecutive_spec {next : Nat} {keys : List Nat} (sorted : keys.Pairwise (· < ·))
    (above : ∀ k ∈ keys, next ≤ k) :
    next ≤ consecutive next keys ∧ (∀ i, next ≤ i → i < consecutive next keys → i ∈ keys) ∧
      consecutive next keys ∉ keys := by
  induction keys generalizing next with
  | nil => exact ⟨le_rfl, fun i low high => absurd high (not_lt.mpr low), not_mem_nil⟩
  | cons key rest ih =>
    obtain ⟨later, sortedRest⟩ := pairwise_cons.mp sorted
    simp only [consecutive]
    split
    case isTrue same =>
      subst same
      have aboveRest : ∀ k ∈ rest, key + 1 ≤ k := fun k mem => later k mem
      obtain ⟨low, between, fresh⟩ := ih sortedRest aboveRest
      refine ⟨by omega, fun i low' high => ?_, ?_⟩
      · obtain rfl | lt := Nat.eq_or_lt_of_le low'
        · exact mem_cons_self
        · exact mem_cons_of_mem _ (between i lt high)
      · intro mem
        obtain same | inRest := mem_cons.mp mem
        · omega
        · exact fresh inRest
    case isFalse ne =>
      refine ⟨le_rfl, fun i low high => absurd high (not_lt.mpr low), fun mem => ?_⟩
      have first := above key mem_cons_self
      obtain same | inRest := mem_cons.mp mem
      · exact ne same.symm
      · have := later next inRest
        omega

theorem takeResponses_eq_ok {responses : SortedMap Nat StateSyncResponse} {indices : List Nat}
    (distinct : indices.Nodup)
    (present : ∀ i ∈ indices, i ∈ responses.keys) (keyed : ∀ {i r}, (i, r) ∈ responses → r.responseIndex = i) :
    ∃ left taken, takeResponses responses indices = .ok (left, taken) ∧ taken.map (·.responseIndex) = indices ∧
      (∀ r ∈ taken, ∃ i, (i, r) ∈ responses) ∧ ∀ e, e ∈ left ↔ e ∈ responses ∧ e.1 ∉ indices := by
  induction indices generalizing responses with
  | nil => exact ⟨responses, [], rfl, rfl, by simp, by simp⟩
  | cons index rest ih =>
    obtain ⟨notLater, distinctRest⟩ := nodup_cons.mp distinct
    obtain ⟨response, mem⟩ := mem_keys.mp (present index mem_cons_self)
    have presentRest : ∀ i ∈ rest, i ∈ (responses.erase index).keys := by
      intro i inRest
      have ne : i ≠ index := fun same => notLater (same ▸ inRest)
      exact mem_keys_erase.mpr ⟨present i (mem_cons_of_mem _ inRest), ne⟩
    obtain ⟨left, taken, ok, same, origin, leftOver⟩ :=
      ih distinctRest presentRest fun inErased => keyed (mem_erase.mp inErased).1
    refine ⟨left, response :: taken, ?_, by simp [same, keyed mem], fun r inTaken => ?_, fun e => ?_⟩
    · simp only [takeResponses, get?_eq_some_iff.mpr mem, ok]
    · obtain rfl | later := mem_cons.mp inTaken
      · exact ⟨index, mem⟩
      · obtain ⟨i, inErased⟩ := origin r later
        exact ⟨i, (mem_erase.mp inErased).1⟩
    · rw [leftOver, mem_erase]
      simp only [mem_cons, not_or]
      exact ⟨fun ⟨⟨old, ne⟩, notRest⟩ => ⟨old, ne, notRest⟩, fun ⟨old, ne, notRest⟩ => ⟨⟨old, ne⟩, notRest⟩⟩

/-- The chunks that wait are for later indices, and came with one nonce for the request of the attempt. -/
structure Waiting (request : StateSyncRequest) (attempt : InFlightRequest) : Prop where
  later : ∀ {i r}, (i, r) ∈ attempt.responses → attempt.responseIndex < i ∧ r.responseIndex = i ∧ r.request = request
  nonce : ∀ {i r i' r'}, (i, r) ∈ attempt.responses → (i', r') ∈ attempt.responses → r.nonce = r'.nonce

/-- What `apply_response` hands out: consecutive chunks from the expected one on. -/
structure Continues (attempt attempt' : InFlightRequest) (response : StateSyncResponse)
    (handed : List StateSyncResponse) : Prop where
  indices : handed.map (·.responseIndex) = List.range' attempt.responseIndex handed.length
  next : attempt'.responseIndex = attempt.responseIndex + handed.length
  nonce : ∀ r ∈ handed, r.nonce = response.nonce
  received : ∀ r ∈ handed, r = response ∨ ∃ i, (i, r) ∈ attempt.responses
  waiting : ∀ {i r}, (i, r) ∈ attempt'.responses → r = response ∨ (i, r) ∈ attempt.responses
  due : handed ≠ [] → response.responseIndex = attempt.responseIndex

theorem Continues.isFor {request : StateSyncRequest} {attempt attempt' : InFlightRequest} {response : StateSyncResponse}
    {handed : List StateSyncResponse} (continues : Continues attempt attempt' response handed)
    (waiting : Waiting request attempt) (isFor : response.request = request) : ∀ r ∈ handed, r.request = request := by
  intro r mem
  obtain rfl | ⟨i, waits⟩ := continues.received r mem
  · exact isFor
  · exact (waiting.later waits).2.2

theorem Waiting.new (request : StateSyncRequest) (now : Nat) (peer : NodeId) : Waiting request (new now peer) :=
  ⟨fun mem => absurd mem (not_mem_empty _), fun mem => absurd mem (not_mem_empty _)⟩

section Apply

variable {request : StateSyncRequest} {attempt : InFlightRequest} {now : Nat} {response : StateSyncResponse}

variable (waiting : Waiting request attempt)

include waiting

variable (now response) in
/-- After a response passed the check, every chunk that waits has its nonce. -/
theorem checkNonce_spec : (attempt.checkNonce now response).2.responseIndex = attempt.responseIndex ∧
      (∀ {i r}, (i, r) ∈ (attempt.checkNonce now response).2.responses → (i, r) ∈ attempt.responses) ∧
      ((attempt.checkNonce now response).1 = true →
        ∀ {i r}, (i, r) ∈ (attempt.checkNonce now response).2.responses → r.nonce = response.nonce) := by
  unfold checkNonce
  simp only
  split
  case isTrue =>
    split
    · exact ⟨rfl, fun mem => absurd mem (not_mem_empty _), fun _ => fun mem => absurd mem (not_mem_empty _)⟩
    · exact ⟨rfl, id, fun passed => by cases passed⟩
  case isFalse same =>
    refine ⟨rfl, id, fun _ {i r} mem => ?_⟩
    -- the first chunk that waits has the nonce, and the others have that of the first
    cases entries : attempt.responses.entries with
    | nil => simp [mem_def, entries] at mem
    | cons head rest =>
      have isHead : (head.1, head.2) ∈ attempt.responses := by simp [mem_def, entries]
      have headNonce : head.2.nonce = response.nonce := by simpa [entries] using same
      exact (waiting.nonce mem isHead).trans headNonce

theorem insertResponse_spec (isFor : response.request = request)
    (nonces : ∀ {i r}, (i, r) ∈ attempt.responses → r.nonce = response.nonce)
    (fresh : attempt.responses.contains response.responseIndex = false) :
    ∃ attempt' handed, attempt.insertResponse response = .ok (attempt', handed) ∧ Waiting request attempt' ∧
      Continues attempt attempt' response handed := by
  unfold insertResponse
  split
  · exact ⟨_, _, rfl, waiting, rfl, by simp, by simp, by simp, .inr, by simp⟩
  case isFalse notOld =>
    split
    case isTrue due =>
      -- the keys from the next index on are taken out
      have sorted : attempt.responses.keys.Pairwise (· < ·) := pairwise_map.mpr attempt.responses.sorted
      have above : ∀ k ∈ attempt.responses.keys, attempt.responseIndex + 1 ≤ k := by
        intro k mem
        obtain ⟨r, mem⟩ := mem_keys.mp mem
        exact (waiting.later mem).1
      obtain ⟨low, between, notNext⟩ := consecutive_spec sorted above
      simp only
      generalize consecutive (attempt.responseIndex + 1) attempt.responses.keys = next at low between notNext ⊢
      have present : ∀ i ∈ List.range' (attempt.responseIndex + 1) (next - (attempt.responseIndex + 1)),
          i ∈ attempt.responses.keys := by
        intro i mem
        obtain ⟨low', high⟩ := mem_range'_1.mp mem
        exact between i low' (by omega)
      obtain ⟨left, taken, ok, takenIndices, takenMem, leftOver⟩ :=
        takeResponses_eq_ok nodup_range' present fun mem => (waiting.later mem).2.1
      have takenLength : taken.length = next - (attempt.responseIndex + 1) := by
        simpa using congrArg List.length takenIndices
      rw [ok]
      refine ⟨_, _, rfl, ⟨fun {i r} mem => ?_, fun mem mem' => ?_⟩, ?_, ?_, ?_, ?_, ?_, fun _ => due⟩
      · obtain ⟨old, outside⟩ := (leftOver _).mp mem
        obtain ⟨_, index, isRequest⟩ := waiting.later old
        refine ⟨?_, index, isRequest⟩
        have key : i ∈ attempt.responses.keys := mem_keys.mpr ⟨r, old⟩
        have ne : i ≠ next := fun same => notNext (same ▸ key)
        have low' := above i key
        have outside' : ¬ (attempt.responseIndex + 1 ≤ i ∧
            i < attempt.responseIndex + 1 + (next - (attempt.responseIndex + 1))) := by
          rw [← mem_range'_1]
          exact outside
        show next < i
        omega
      · exact waiting.nonce ((leftOver _).mp mem).1 ((leftOver _).mp mem').1
      · simp [takenIndices, due, takenLength, range'_succ]
      · show next = _
        simp only [length_cons, takenLength]
        omega
      · intro r mem
        obtain rfl | mem := mem_cons.mp mem
        · rfl
        · obtain ⟨i, pair⟩ := takenMem r mem
          exact nonces pair
      · intro r mem
        obtain rfl | mem := mem_cons.mp mem
        · exact .inl rfl
        · exact .inr (takenMem r mem)
      · exact fun {i r} mem => .inr ((leftOver _).mp mem).1
    case isFalse notDue =>
      simp only [fresh, Bool.false_eq_true, if_false]
      refine ⟨_, _, rfl, ⟨fun {i r} mem => ?_, fun {i r i' r'} mem mem' => ?_⟩, rfl, by simp, by simp, by simp,
        fun {i r} mem => ?_, by simp⟩
      · obtain ⟨rfl, rfl⟩ | ⟨old, -⟩ := pair_mem_insert.mp mem
        · refine ⟨?_, rfl, isFor⟩
          show attempt.responseIndex < r.responseIndex
          omega
        · exact waiting.later old
      · have nonceOf : ∀ {i r}, (i, r) ∈ attempt.responses.insert response.responseIndex response →
          r.nonce = response.nonce := by
          intro i r mem
          obtain same | ⟨old, -⟩ := mem_insert.mp mem
          · rw [(Prod.mk.inj same).2]
          · exact nonces old
        exact (nonceOf mem).trans (nonceOf mem').symm
      · obtain same | ⟨old, -⟩ := mem_insert.mp mem
        · exact .inl (Prod.mk.inj same).2
        · exact .inr old

variable (now) in
/-- `apply_response`, for a response that does not repeat a chunk that waits. -/
theorem applyResponse_spec (isFor : response.request = request)
    (fresh : (attempt.checkNonce now response).1 = true →
      (attempt.checkNonce now response).2.responses.contains response.responseIndex = false) :
    ∃ attempt' handed, attempt.applyResponse now response = .ok (attempt', handed) ∧ Waiting request attempt' ∧
      Continues attempt attempt' response handed ∧ (handed ≠ [] → (attempt.checkNonce now response).1 = true) := by
  obtain ⟨sameIndex, subset, nonces⟩ := checkNonce_spec now response waiting
  unfold applyResponse
  cases checked : attempt.checkNonce now response with
  | mk passed attempt₁ =>
    simp only [checked] at sameIndex subset nonces fresh ⊢
    have waiting₁ : Waiting request attempt₁ :=
      ⟨fun mem => sameIndex ▸ waiting.later (subset mem), fun mem mem' => waiting.nonce (subset mem) (subset mem')⟩
    cases passed with
    | false => exact ⟨attempt₁, [], rfl, waiting₁, ⟨rfl, by simp [sameIndex], by simp, by simp,
      fun mem => .inr (subset mem), by simp⟩, by simp⟩
    | true =>
      obtain ⟨attempt₂, handed, ok, waiting₂, continues⟩ := insertResponse_spec waiting₁ isFor (nonces rfl) (fresh rfl)
      refine ⟨attempt₂, handed, ok, waiting₂, ⟨?_, ?_, continues.nonce, fun r mem => ?_, fun mem => ?_, fun some => ?_⟩,
        fun _ => rfl⟩
      · rw [continues.indices, sameIndex]
      · rw [continues.next, sameIndex]
      · exact (continues.received r mem).imp_right fun ⟨i, old⟩ => ⟨i, subset old⟩
      · exact (continues.waiting mem).imp_right subset
      · exact (continues.due some).trans sameIndex

end Apply

end InFlightRequest

/-! ## Runs -/

namespace OutboundRequests

def call (s : OutboundRequests) : OutboundCall → Except OutboundPanic (OutboundRequests × OutboundReply)
  | .queueRequest request => (s.queueRequest request).map fun s => (s, .none)
  | .poll now rng => (s.poll now rng).map fun (s, result) => (s, .polled result)
  | .handleResponse now sender response => (s.handleResponse now sender response).map fun (s, responses) =>
    (s, .handedOut responses)
  | .handleBadVersion sender badVersion => .ok (s.handleBadVersion sender badVersion, .none)

/-- What the current or last attempt at `request` has handed out, with the peer it came from. -/
def attemptLog (request : StateSyncRequest) (history : List (OutboundCall × OutboundReply)) :
    List (NodeId × StateSyncResponse) :=
  history.foldl (fun log entry =>
    match entry with
    | (.handleResponse _ sender _, reply) =>
      log ++ (reply.responses.filter (·.request = request)).map fun r => (sender, r)
    | (_, reply) => if reply.sent = some request then [] else log) []

/-- The request that `poll` sends: the first that waits if there is room, else one that has been idle for too long. -/
def Due (s : OutboundRequests) (now : Nat) (request : StateSyncRequest) : Prop :=
  if s.inFlightRequests.entries.length < s.maxParallelRequests ∧ s.pendingRequests.entries ≠ [] then
    s.pendingRequests.keys.head? = some request
  else ∃ attempt, longestIdle s.inFlightRequests.entries = some (request, attempt) ∧
    s.requestTimeout ≤ now - attempt.lastActive

/-- A prefix has a peer that is not dropped, or no peer yet and there is one to choose. -/
def Reachable (s : OutboundRequests) (statePrefix : Nat) : Prop :=
  match s.prefixPeers.get? statePrefix with
  | some peer => peer ∈ s.peers.keys
  | none => s.peers.keys ≠ []

/-- A response does not repeat a chunk that waits, and when it is due it carries the nonce of what was handed out. -/
def Fits (attempt : InFlightRequest) (now : Nat) (log : List (NodeId × StateSyncResponse))
    (response : StateSyncResponse) : Prop :=
  (attempt.checkNonce now response).1 = true →
    (attempt.checkNonce now response).2.responses.contains response.responseIndex = false ∧
      (response.responseIndex = attempt.responseIndex → ∀ entry ∈ log, entry.2.nonce = response.nonce)

def Safe (s : OutboundRequests) (target : Nat) (history : List (OutboundCall × OutboundReply)) : OutboundCall → Prop
  | .queueRequest request => request.target = target
  | .poll now _ => ∀ request, s.Due now request → s.Reachable request.statePrefix
  | .handleResponse now sender response =>
    (∀ peer, s.prefixPeers.get? response.request.statePrefix = some peer → peer = sender) →
      ∀ attempt, s.inFlightRequests.get? response.request = some attempt →
        Fits attempt now (attemptLog response.request history) response
  | .handleBadVersion _ _ => True

/-- A run of safe calls, with their replies. -/
inductive Run (target : Nat) (s₀ : OutboundRequests) : List (OutboundCall × OutboundReply) → OutboundRequests →
    Prop where
  | nil : Run target s₀ [] s₀
  | snoc {history : List (OutboundCall × OutboundReply)} {s s' : OutboundRequests} {c : OutboundCall}
      {reply : OutboundReply} : Run target s₀ history s → s.Safe target history c → s.call c = .ok (s', reply) →
      Run target s₀ (history ++ [(c, reply)]) s'

/-- A request waits or is in flight, in some version. -/
def Outstanding (s : OutboundRequests) (request : StateSyncRequest) : Prop :=
  ∃ k, (k ∈ s.pendingRequests.keys ∨ k ∈ s.inFlightRequests.keys) ∧ k.Same request

/-- From one peer, with one nonce, in order and without gaps. -/
structure InOrder (log : List (NodeId × StateSyncResponse)) : Prop where
  peer : ∀ e ∈ log, ∀ e' ∈ log, e.1 = e'.1
  nonce : ∀ e ∈ log, ∀ e' ∈ log, e.2.nonce = e'.2.nonce
  indices : log.map (·.2.responseIndex) = List.range log.length

/-! ## What every run keeps -/

section Log

variable {request : StateSyncRequest} {history : List (OutboundCall × OutboundReply)}

theorem attemptLog_handleResponse (now : Nat) (sender : NodeId) (response : StateSyncResponse)
    (handed : List StateSyncResponse) :
    attemptLog request (history ++ [(.handleResponse now sender response, .handedOut handed)]) =
      attemptLog request history ++ (handed.filter (·.request = request)).map fun r => (sender, r) := by
  simp [attemptLog, OutboundReply.responses]

theorem attemptLog_poll (now rng : Nat) (result : RequestPollResult) :
    attemptLog request (history ++ [(.poll now rng, .polled result)]) =
      if (OutboundReply.polled result).sent = some request then [] else attemptLog request history := by
  simp [attemptLog]

end Log

/-- A response was received from the peer that its prefix is bound to. -/
def Received (s : OutboundRequests) (history : List (OutboundCall × OutboundReply)) (request : StateSyncRequest)
    (sender : NodeId) (response : StateSyncResponse) : Prop :=
  (∃ now reply, (.handleResponse now sender response, reply) ∈ history) ∧
    s.prefixPeers.get? request.statePrefix = some sender

structure Consistent (target : Nat) (history : List (OutboundCall × OutboundReply)) (s : OutboundRequests) : Prop where
  target : ∀ {k}, k ∈ s.pendingRequests.keys ∨ k ∈ s.inFlightRequests.keys → k.target = target
  waiting : ∀ {k a}, (k, a) ∈ s.inFlightRequests → a.Waiting k
  index : ∀ {k a}, (k, a) ∈ s.inFlightRequests → a.responseIndex = (attemptLog k history).length
  buffered : ∀ {k a i r}, (k, a) ∈ s.inFlightRequests → (i, r) ∈ a.responses → ∃ sender, s.Received history k sender r
  received : ∀ {k e}, e ∈ attemptLog k history → s.Received history k e.1 e.2
  nonce : ∀ {k e e'}, e ∈ attemptLog k history → e' ∈ attemptLog k history → e.2.nonce = e'.2.nonce
  indices : ∀ k, (attemptLog k history).map (·.2.responseIndex) = List.range (attemptLog k history).length

section Steps

variable {target : Nat} {history : List (OutboundCall × OutboundReply)} {s s' : OutboundRequests}

variable {request : StateSyncRequest} {sender : NodeId} {response : StateSyncResponse}
  {entry : OutboundCall × OutboundReply} {keys : List StateSyncRequest} {now : Nat}

theorem Received.mono (received : s.Received history request sender response)
    (peers : ∀ {p}, s.prefixPeers.get? request.statePrefix = some p →
      s'.prefixPeers.get? request.statePrefix = some p) :
    s'.Received (history ++ [entry]) request sender response := by
  obtain ⟨⟨now, reply, mem⟩, bound⟩ := received
  exact ⟨⟨now, reply, mem_append_left _ mem⟩, peers bound⟩

variable (consistent : Consistent target history s)

include consistent

/-- A step that hands out nothing, keeps the bound peers, and starts no attempt but maybe a new one at `sent`. -/
theorem Consistent.quiet
    (targets : ∀ {k}, k ∈ s'.pendingRequests.keys ∨ k ∈ s'.inFlightRequests.keys → k.target = target)
    (peers : ∀ {k p}, s.prefixPeers.get? k = some p → s'.prefixPeers.get? k = some p)
    (log : ∀ k, attemptLog k (history ++ [entry]) = if entry.2.sent = some k then [] else attemptLog k history)
    (attempts : ∀ {k a}, (k, a) ∈ s'.inFlightRequests →
      (entry.2.sent = some k ∧ ∃ now peer, a = .new now peer) ∨ (entry.2.sent ≠ some k ∧ (k, a) ∈ s.inFlightRequests)) :
    Consistent target (history ++ [entry]) s' where
  target := targets
  waiting := by
    intro k a mem
    obtain ⟨-, now, peer, rfl⟩ | ⟨-, old⟩ := attempts mem
    · exact .new k now peer
    · exact consistent.waiting old
  index := by
    intro k a mem
    rw [log]
    obtain ⟨isSent, now, peer, rfl⟩ | ⟨notSent, old⟩ := attempts mem
    · simp [isSent, InFlightRequest.new]
    · simp [notSent, consistent.index old]
  buffered := by
    intro k a i r mem waits
    obtain ⟨-, now, peer, rfl⟩ | ⟨-, old⟩ := attempts mem
    · exact absurd waits (not_mem_empty _)
    · obtain ⟨sender, received⟩ := consistent.buffered old waits
      exact ⟨sender, received.mono peers⟩
  received := by
    intro k e mem
    rw [log] at mem
    split at mem
    · cases mem
    · exact (consistent.received mem).mono peers
  nonce := by
    intro k e e' mem mem'
    rw [log] at mem mem'
    split at mem
    · cases mem
    case isFalse notSent =>
      rw [if_neg notSent] at mem'
      exact consistent.nonce mem mem'
  indices := by
    intro k
    rw [log]
    split
    · rfl
    · exact consistent.indices k

/-- A call returns, keeps the invariant and loses no request that was not answered. -/
def Serves (target : Nat) (history : List (OutboundCall × OutboundReply)) (s : OutboundRequests) (c : OutboundCall) :
    Prop :=
  ∃ s' reply, s.call c = .ok (s', reply) ∧ Consistent target (history ++ [(c, reply)]) s' ∧
    (∀ q, s.Outstanding q → s'.Outstanding q ∨ ∃ r ∈ reply.responses, r.responseN ≠ 0 ∧ r.request.Same q) ∧
    ∀ q, c = .queueRequest q → s'.Outstanding q

theorem Consistent.serves_queueRequest (isTarget : request.target = target) :
    Serves target history s (.queueRequest request) := by
  have passes : (s.currentTarget.all fun t => t = request.target) = true := by
    rw [Option.all_eq_true]
    intro t isCurrent
    obtain ⟨k, first, rfl⟩ := Option.map_eq_some_iff.mp isCurrent
    have known : k ∈ s.pendingRequests.keys ∨ k ∈ s.inFlightRequests.keys := by
      obtain pending | ⟨-, inFlight⟩ := Option.or_eq_some_iff.mp first
      · exact .inl (mem_of_mem_head? pending)
      · exact .inr (mem_of_mem_head? inFlight)
    simp [consistent.target known, isTarget]
  refine ⟨_, .none, by simp only [call, queueRequest, passes, if_true]; rfl, ?_, ?_, ?_⟩
  · refine consistent.quiet (fun {k} known => ?_) id (fun k => by simp [attemptLog, OutboundReply.sent])
      fun mem => .inr ⟨by simp [OutboundReply.sent], mem⟩
    obtain pending | inFlight := known
    · obtain rfl | old := mem_keys_insert.mp pending
      · exact isTarget
      · exact consistent.target (.inl old)
    · exact consistent.target (.inr inFlight)
  · rintro q ⟨k, pending | inFlight, same⟩
    · exact .inl ⟨k, .inl (mem_keys_insert.mpr (.inr pending)), same⟩
    · exact .inl ⟨k, .inr inFlight, same⟩
  · rintro q ⟨⟩
    exact ⟨request, .inl (mem_keys_insert.mpr (.inl rfl)), .refl request⟩

/-- Sending a request that was taken out of `s`. -/
theorem Consistent.insertRequest (s₁ : OutboundRequests) {toSend : StateSyncRequest}
    (now rng : Nat) (known : toSend ∈ s.pendingRequests.keys ∨ toSend ∈ s.inFlightRequests.keys)
    (peers : s₁.peers = s.peers) (prefixPeers : s₁.prefixPeers = s.prefixPeers)
    (pending : ∀ k, k ∈ s₁.pendingRequests.keys → k ∈ s.pendingRequests.keys)
    (inFlight : ∀ e, e ∈ s₁.inFlightRequests → e ∈ s.inFlightRequests)
    (kept : ∀ k, k ∈ s.pendingRequests.keys ∨ k ∈ s.inFlightRequests.keys →
      k = toSend ∨ k ∈ s₁.pendingRequests.keys ∨ k ∈ s₁.inFlightRequests.keys)
    (reachable : s.Reachable toSend.statePrefix)
    (polls : ∀ {s' peer request}, s₁.insertRequest now rng toSend = .ok (s', peer, request) →
      s.poll now rng = .ok (s', .request peer request)) : Serves target history s (.poll now rng) := by
  obtain ⟨peer, chosen, version, isPeer⟩ : ∃ peer, s₁.choosePeer rng toSend.statePrefix = .ok peer ∧
      ∃ version, s₁.peers.get? peer = some version := by
    have found : ∀ {peer}, peer ∈ s.peers.keys → ∃ version, s.peers.get? peer = some version := by
      intro peer mem
      obtain ⟨version, mem⟩ := mem_keys.mp mem
      exact ⟨version, get?_eq_some_iff.mpr mem⟩
    unfold Reachable at reachable
    unfold choosePeer
    rw [prefixPeers, peers]
    split at reachable
    case h_1 peer bound =>
      simp only [bound, Option.some_or]
      exact ⟨peer, rfl, found reachable⟩
    case h_2 free =>
      have inRange : rng % s.peers.keys.length < s.peers.keys.length := Nat.mod_lt _ (length_pos_iff.mpr reachable)
      simp only [free, Option.none_or, getElem?_eq_getElem inRange]
      exact ⟨_, rfl, found (getElem_mem _)⟩
  let s' : OutboundRequests :=
    { s₁ with inFlightRequests := s₁.inFlightRequests.insert (toSend.withVersion version) (.new now peer) }
  have sends : s₁.insertRequest now rng toSend = .ok (s', peer, toSend.withVersion version) := by
    simp only [OutboundRequests.insertRequest, chosen, isPeer, s']
  refine ⟨s', .polled (.request peer (toSend.withVersion version)), by simp only [call, polls sends]; rfl, ?_, ?_,
    by simp⟩
  · refine consistent.quiet (fun {k} mem => ?_) (prefixPeers ▸ id) (fun k => attemptLog_poll now rng _) fun {k a} mem =>
      ?_
    · obtain inPending | inNew := mem
      · exact consistent.target (.inl (pending k inPending))
      · obtain rfl | old := mem_keys_insert.mp inNew
        · show toSend.target = target
          exact consistent.target known
        · obtain ⟨a, old⟩ := mem_keys.mp old
          exact consistent.target (.inr (mem_keys.mpr ⟨a, inFlight _ old⟩))
    · obtain ⟨rfl, rfl⟩ | ⟨old, ne⟩ := pair_mem_insert.mp mem
      · exact .inl ⟨rfl, now, peer, rfl⟩
      · exact .inr ⟨fun isSent => ne (Option.some.inj isSent).symm, inFlight _ old⟩
  · rintro q ⟨k, known, same⟩
    obtain rfl | inPending | inOld := kept k known
    · refine .inl ⟨k.withVersion version, .inr (mem_keys_insert.mpr (.inl rfl)), ?_⟩
      exact (StateSyncRequest.same_withVersion k version).trans same
    · exact .inl ⟨k, .inl inPending, same⟩
    · exact .inl ⟨k, .inr (mem_keys_insert.mpr (.inr inOld)), same⟩

omit consistent in
theorem longestIdle_mem {entries : List (StateSyncRequest × InFlightRequest)}
    {entry : StateSyncRequest × InFlightRequest} (h : longestIdle entries = some entry) : entry ∈ entries := by
  induction entries with
  | nil => cases h
  | cons first rest ih =>
    simp only [longestIdle] at h
    split at h
    · exact Option.some.inj h ▸ mem_cons_self
    case h_2 other found =>
      split at h
      · exact mem_cons_of_mem _ (ih (Option.some.inj h ▸ found))
      · exact Option.some.inj h ▸ mem_cons_self

theorem Consistent.serves_poll {now rng : Nat}
    (safe : ∀ request, s.Due now request → s.Reachable request.statePrefix) :
      Serves target history s (.poll now rng) := by
  -- a poll that only waits
  have waits : ∀ deadline, s.poll now rng = .ok (s, .timer deadline) → Serves target history s (.poll now rng) := by
    intro deadline done
    refine ⟨s, .polled (.timer deadline), by simp only [call, done]; rfl, ?_, fun q known => .inl known, by simp⟩
    exact consistent.quiet consistent.target id (fun k => attemptLog_poll now rng _) fun mem => .inr
      ⟨by simp [OutboundReply.sent], mem⟩
  by_cases room : s.inFlightRequests.entries.length < s.maxParallelRequests ∧ s.pendingRequests.entries ≠ []
  · cases keys : s.pendingRequests.keys with
    | nil => exact absurd (map_eq_nil_iff.mp keys) room.2
    | cons toSend rest =>
      have known : toSend ∈ s.pendingRequests.keys := by simp [keys]
      have due : s.Due now toSend := by simp [Due, room, keys]
      refine consistent.insertRequest { s with pendingRequests := s.pendingRequests.erase toSend } now rng
        (.inl known) rfl rfl
        (fun k mem => (mem_keys_erase.mp mem).1) (fun e mem => mem) (fun k mem => ?_) (safe toSend due) fun sends => ?_
      · by_cases same : k = toSend
        · exact .inl same
        · exact .inr (mem.imp_left fun pending => mem_keys_erase.mpr ⟨pending, same⟩)
      · simp only [poll, if_pos room, keys, sends]
  · cases idle : longestIdle s.inFlightRequests.entries with
    | none => exact waits none (by simp only [poll, if_neg room, idle])
    | some entry =>
      obtain ⟨toSend, attempt⟩ := entry
      by_cases early : now - attempt.lastActive < s.requestTimeout
      · exact waits (some (attempt.lastActive + s.requestTimeout))
          (by simp only [poll, if_neg room, idle, if_pos early])
      · have known := mem_keys.mpr ⟨attempt, longestIdle_mem idle⟩
        have due : s.Due now toSend := by
          rw [Due, if_neg room]
          exact ⟨attempt, idle, not_lt.mp early⟩
        refine consistent.insertRequest { s with inFlightRequests := s.inFlightRequests.erase toSend } now rng
          (.inr known) rfl rfl
          (fun k mem => mem) (fun e mem => (mem_erase.mp mem).1) (fun k mem => ?_) (safe toSend due) fun sends => ?_
        · by_cases same : k = toSend
          · exact .inl same
          · exact .inr (mem.imp_right fun inFlight => mem_keys_erase.mpr ⟨inFlight, same⟩)
        · simp only [poll, if_neg room, idle, if_neg early, sends]

omit consistent in
theorem mem_keys_foldl_insert {pending : SortedMap StateSyncRequest Unit} {k : StateSyncRequest} :
    k ∈ (keys.foldl (fun pending request => pending.insert request ()) pending).keys ↔ k ∈ keys ∨ k ∈ pending.keys := by
  induction keys generalizing pending with
  | nil => simp
  | cons key rest ih =>
    rw [foldl_cons, ih, mem_keys_insert, mem_cons]
    tauto

omit consistent in
theorem mem_foldl_erase {inFlight : SortedMap StateSyncRequest InFlightRequest}
    {e : StateSyncRequest × InFlightRequest} :
    e ∈ keys.foldl (fun inFlight request => inFlight.erase request) inFlight ↔ e ∈ inFlight ∧ e.1 ∉ keys := by
  induction keys generalizing inFlight with
  | nil => simp
  | cons key rest ih =>
    rw [foldl_cons, ih, mem_erase, mem_cons]
    tauto

theorem Consistent.serves_handleBadVersion (sender : NodeId)
    (badVersion : StateSyncBadVersion) : Serves target history s (.handleBadVersion sender badVersion) := by
  have subset : ∀ {k}, k ∈ (s.cancelled sender badVersion).keys → k ∈ s.inFlightRequests.keys := by
    intro k mem
    obtain ⟨a, mem⟩ := mem_keys.mp mem
    exact mem_keys.mpr ⟨a, (SortedMap.mem_filter.mp mem).1⟩
  refine ⟨_, .none, rfl, ?_, ?_, by simp⟩
  · refine consistent.quiet (fun {k} mem => ?_) id (fun k => by simp [attemptLog, OutboundReply.sent])
      fun mem => .inr ⟨by simp [OutboundReply.sent], (mem_foldl_erase.mp mem).1⟩
    obtain pending | inFlight := mem
    · obtain cancelled | old := mem_keys_foldl_insert.mp pending
      · exact consistent.target (.inr (subset cancelled))
      · exact consistent.target (.inl old)
    · obtain ⟨a, mem⟩ := mem_keys.mp inFlight
      exact consistent.target (.inr (mem_keys.mpr ⟨a, (mem_foldl_erase.mp mem).1⟩))
  · rintro q ⟨k, pending | inFlight, same⟩
    · exact .inl ⟨k, .inl (mem_keys_foldl_insert.mpr (.inr pending)), same⟩
    · by_cases cancelled : k ∈ (s.cancelled sender badVersion).keys
      · exact .inl ⟨k, .inl (mem_keys_foldl_insert.mpr (.inl cancelled)), same⟩
      · obtain ⟨a, mem⟩ := mem_keys.mp inFlight
        exact .inl ⟨k, .inr (mem_keys.mpr ⟨a, mem_foldl_erase.mpr ⟨mem, cancelled⟩⟩), same⟩

omit consistent in
/-- The log of an attempt after it handed out chunks. -/
theorem attemptLog_append {handed : List StateSyncResponse} (isFor : ∀ r ∈ handed, r.request = response.request)
    (k : StateSyncRequest) : attemptLog k (history ++ [(.handleResponse now sender response, .handedOut handed)]) =
      if k = response.request then attemptLog k history ++ handed.map fun r => (sender, r)
        else attemptLog k history := by
  rw [attemptLog_handleResponse]
  split
  case isTrue same =>
    have all : handed.filter (·.request = k) = handed := by
      rw [filter_eq_self]
      intro r mem
      simp [isFor r mem, same]
    rw [all]
  case isFalse other =>
    have none : handed.filter (·.request = k) = [] := by
      rw [filter_eq_nil_iff]
      intro r mem
      simpa [isFor r mem] using fun same => other same.symm
    rw [none, map_nil, append_nil]

theorem Consistent.handed {attempt attempt' : InFlightRequest}
    {handed : List StateSyncResponse} (inFlight : (response.request, attempt) ∈ s.inFlightRequests)
    (bound : s'.prefixPeers.get? response.request.statePrefix = some sender)
    (peers : ∀ {k p}, s.prefixPeers.get? k = some p → s'.prefixPeers.get? k = some p)
    (pending : s'.pendingRequests = s.pendingRequests) (attempts : ∀ {k a}, (k, a) ∈ s'.inFlightRequests →
      (k = response.request ∧ a = attempt') ∨ (k ≠ response.request ∧ (k, a) ∈ s.inFlightRequests))
    (waiting : attempt'.Waiting response.request) (continues : attempt.Continues attempt' response handed)
    (nonce : handed ≠ [] → ∀ entry ∈ attemptLog response.request history, entry.2.nonce = response.nonce) :
    Consistent target (history ++ [(.handleResponse now sender response, .handedOut handed)]) s' := by
  have isFor := continues.isFor (consistent.waiting inFlight) rfl
  have log : ∀ k, attemptLog k (history ++ [(.handleResponse now sender response, .handedOut handed)]) =
      if k = response.request then attemptLog k history ++ handed.map (fun r => (sender, r))
        else attemptLog k history :=
    attemptLog_append isFor
  have newly : s'.Received (history ++ [(.handleResponse now sender response,
    .handedOut handed)]) response.request sender response :=
    ⟨⟨now, _, mem_append_right _ (mem_singleton.mpr rfl)⟩, bound⟩
  have origin : ∀ r, (r = response ∨ ∃ i, (i, r) ∈ attempt.responses) →
      s'.Received (history ++ [(.handleResponse now sender response,
        .handedOut handed)]) response.request sender r := by
    rintro r (rfl | ⟨i, waits⟩)
    · exact newly
    · obtain ⟨other, received⟩ := consistent.buffered inFlight waits
      -- the chunk came from the peer that the prefix is bound to
      obtain rfl : other = sender := Option.some.inj ((peers received.2).symm.trans bound)
      exact received.mono peers
  refine ⟨fun {k} mem => ?_, fun {k a} mem => ?_, fun {k a} mem => ?_, fun {k a i r} mem waits => ?_,
    fun {k e} mem => ?_, fun {k e e'} mem mem' => ?_, fun k => ?_⟩
  · obtain inPending | inNew := mem
    · exact consistent.target (.inl (pending ▸ inPending))
    · obtain ⟨a, inNew⟩ := mem_keys.mp inNew
      obtain ⟨rfl, -⟩ | ⟨-, old⟩ := attempts inNew
      · exact consistent.target (.inr (mem_keys.mpr ⟨attempt, inFlight⟩))
      · exact consistent.target (.inr (mem_keys.mpr ⟨a, old⟩))
  · obtain ⟨rfl, rfl⟩ | ⟨-, old⟩ := attempts mem
    · exact waiting
    · exact consistent.waiting old
  · rw [log]
    obtain ⟨rfl, rfl⟩ | ⟨other, old⟩ := attempts mem
    · simp [continues.next, consistent.index inFlight]
    · simp [other, consistent.index old]
  · obtain ⟨rfl, rfl⟩ | ⟨-, old⟩ := attempts mem
    · exact ⟨sender, origin r ((continues.waiting waits).imp_right fun old => ⟨i, old⟩)⟩
    · obtain ⟨other, received⟩ := consistent.buffered old waits
      exact ⟨other, received.mono peers⟩
  · rw [log] at mem
    split at mem
    case isTrue same =>
      obtain old | new := mem_append.mp mem
      · exact (consistent.received old).mono peers
      · obtain ⟨r, inHanded, rfl⟩ := mem_map.mp new
        exact same ▸ origin r (continues.received r inHanded)
    · exact (consistent.received mem).mono peers
  · rw [log] at mem mem'
    split at mem
    case isTrue same =>
      subst same
      rw [if_pos rfl] at mem'
      have nonces : ∀ entry ∈ attemptLog response.request history ++ handed.map (fun r => (sender, r)), handed ≠ [] →
          entry.2.nonce = response.nonce := by
        intro entry inLog some
        obtain old | new := mem_append.mp inLog
        · exact nonce some entry old
        · obtain ⟨r, inHanded, rfl⟩ := mem_map.mp new
          exact continues.nonce r inHanded
      by_cases some : handed = []
      · subst some
        rw [map_nil, append_nil] at mem mem'
        exact consistent.nonce mem mem'
      · exact (nonces e mem some).trans (nonces e' mem' some).symm
    case isFalse other =>
      rw [if_neg other] at mem'
      exact consistent.nonce mem mem'
  · rw [log]
    split
    case isTrue same =>
      subst same
      have lengths := consistent.index inFlight
      have indices : (handed.map fun r => (sender, r)).map (·.2.responseIndex) =
          List.range' (attemptLog response.request history).length handed.length := by
        rw [← lengths, ← continues.indices, map_map]
        rfl
      rw [map_append, consistent.indices, indices, length_append, length_map, range_eq_range',
        range_eq_range', ← range'_append_1, Nat.zero_add]
    · exact consistent.indices k

theorem Consistent.serves_handleResponse (safe : s.Safe target history (.handleResponse now sender response)) :
    Serves target history s (.handleResponse now sender response) := by
  by_cases bound : ∀ peer, s.prefixPeers.get? response.request.statePrefix = some peer → peer = sender
  case neg =>
    -- the response is dropped
    obtain ⟨peer, isPeer, other⟩ : ∃ peer, s.prefixPeers.get? response.request.statePrefix = some peer ∧
      peer ≠ sender := by
      push Not at bound
      exact bound
    refine ⟨s, .handedOut [], ?_, ?_, fun q known => .inl known, by simp⟩
    · simp only [call, handleResponse, isPeer, Option.any_some, other, ne_eq, not_false_eq_true, decide_true, if_true]
      rfl
    · refine consistent.quiet consistent.target id (fun k => ?_) fun mem => .inr ⟨by simp [OutboundReply.sent], mem⟩
      simp [attemptLog_handleResponse, OutboundReply.sent]
  case pos =>
    have passes : ¬ ((s.prefixPeers.get? response.request.statePrefix).any fun peer => peer ≠ sender) = true := by
      cases isPeer : s.prefixPeers.get? response.request.statePrefix with
      | none => simp
      | some peer => simp [bound peer isPeer]
    have peers : ∀ {k p}, s.prefixPeers.get? k = some p →
        (s.prefixPeers.insert response.request.statePrefix sender).get? k = some p := by
      intro k p known
      by_cases same : k = response.request.statePrefix
      · subst same
        rw [get?_insert_self, bound p known]
      · rw [get?_insert_ne same, known]
    cases isAttempt : s.inFlightRequests.get? response.request with
    | none =>
      refine ⟨{ s with prefixPeers := s.prefixPeers.insert response.request.statePrefix sender }, .handedOut [], ?_, ?_,
        fun q known => .inl known, by simp⟩
      · simp only [call, handleResponse, if_neg passes, isAttempt]
        rfl
      · refine consistent.quiet consistent.target peers (fun k => ?_) fun mem => .inr
          ⟨by simp [OutboundReply.sent], mem⟩
        simp [attemptLog_handleResponse, OutboundReply.sent]
    | some attempt =>
      have inFlight := get?_eq_some_iff.mp isAttempt
      have fits := safe bound attempt isAttempt
      obtain ⟨attempt', handed, applied, waiting, continues, checked⟩ :=
        InFlightRequest.applyResponse_spec now (consistent.waiting inFlight) rfl fun passed => (fits passed).1
      have nonce : handed ≠ [] → ∀ entry ∈ attemptLog response.request history, entry.2.nonce = response.nonce :=
        fun some => (fits (checked some)).2 (continues.due some)
      by_cases final : (handed.getLast?.any fun last => last.responseN ≠ 0) = true
      · refine ⟨{ s with
            prefixPeers := s.prefixPeers.insert response.request.statePrefix sender
            inFlightRequests := s.inFlightRequests.erase response.request }, .handedOut handed, ?_, ?_, ?_, by simp⟩
        · simp only [call, handleResponse, if_neg passes, isAttempt, applied, if_pos final]
          rfl
        · refine consistent.handed inFlight (get?_insert_self _ _ _) peers rfl
            (fun mem => .inr ?_) waiting continues nonce
          obtain ⟨old, ne⟩ := mem_erase.mp mem
          exact ⟨ne, old⟩
        · rintro q ⟨k, pending | known, same⟩
          · exact .inl ⟨k, .inl pending, same⟩
          · by_cases isRequest : k = response.request
            · subst isRequest
              obtain ⟨last, isLast, isFinal⟩ := (Option.any_eq_true _ _).mp final
              have inHanded := mem_of_mem_getLast? isLast
              have isFor := continues.isFor (consistent.waiting inFlight) rfl last inHanded
              exact .inr ⟨last, inHanded, by simpa using isFinal, isFor ▸ same⟩
            · exact .inl ⟨k, .inr (mem_keys_erase.mpr ⟨known, isRequest⟩), same⟩
      · refine ⟨{ s with
            prefixPeers := s.prefixPeers.insert response.request.statePrefix sender
            inFlightRequests := s.inFlightRequests.insert response.request attempt' }, .handedOut handed, ?_, ?_, ?_,
              by simp⟩
        · simp only [call, handleResponse, if_neg passes, isAttempt, applied, if_neg final]
          rfl
        · refine consistent.handed inFlight (get?_insert_self _ _ _) peers rfl (fun mem => ?_) waiting continues nonce
          obtain new | ⟨old, ne⟩ := mem_insert.mp mem
          · exact .inl (Prod.mk.inj new)
          · exact .inr ⟨ne, old⟩
        · rintro q ⟨k, pending | known, same⟩
          · exact .inl ⟨k, .inl pending, same⟩
          · exact .inl ⟨k, .inr (mem_keys_insert.mpr (.inr known)), same⟩

theorem Consistent.serves {c : OutboundCall} (safe : s.Safe target history c) : Serves target history s c := by
  cases c with
  | queueRequest request => exact consistent.serves_queueRequest safe
  | poll now rng => exact consistent.serves_poll safe
  | handleResponse now sender response => exact consistent.serves_handleResponse safe
  | handleBadVersion sender badVersion => exact consistent.serves_handleBadVersion sender badVersion

end Steps

section Runs

variable {target maxParallelRequests requestTimeout : Nat} {peers : List NodeId}
  {history : List (OutboundCall × OutboundReply)} {s : OutboundRequests}

theorem consistent_new : Consistent target [] (new maxParallelRequests requestTimeout peers) where
  target := by
    intro k known
    simp [new, SortedMap.keys, empty] at known
  waiting := fun mem => absurd mem (not_mem_empty _)
  index := fun mem => absurd mem (not_mem_empty _)
  buffered := fun mem => absurd mem (not_mem_empty _)
  received := fun mem => absurd mem not_mem_nil
  nonce := fun mem => absurd mem not_mem_nil
  indices := fun _ => rfl

section

variable (run : Run target (new maxParallelRequests requestTimeout peers) history s)

include run

theorem Run.consistent : Consistent target history s := by
  induction run with
  | nil => exact consistent_new
  | snoc _ safe called ih =>
    obtain ⟨s', reply, called', kept, -⟩ := ih.serves safe
    obtain ⟨rfl, rfl⟩ := Prod.mk.inj (Except.ok.inj (called'.symm.trans called))
    exact kept

/-- A queued request is outstanding until its last chunk is handed out. -/
theorem Run.outstanding
    {before after : List (OutboundCall × OutboundReply)} {request : StateSyncRequest} {reply : OutboundReply}
    (queued : history = before ++ (.queueRequest request, reply) :: after) :
    s.Outstanding request ∨ ∃ entry ∈ after, ∃ r ∈ entry.2.responses, r.responseN ≠ 0 ∧ r.request.Same request := by
  induction run generalizing after with
  | nil => simp at queued
  | @snoc history s s' c reply' run safe called ih =>
    obtain ⟨s'', reply'', called', -, kept, isQueued⟩ := run.consistent.serves safe
    obtain ⟨rfl, rfl⟩ := Prod.mk.inj (Except.ok.inj (called'.symm.trans called))
    -- the request was queued by the last call, or before it
    obtain rfl | ⟨earlier, last, rfl⟩ := eq_nil_or_concat after
    · obtain ⟨-, same⟩ := append_inj' queued rfl
      exact .inl (isQueued request (Prod.mk.inj (singleton_inj.mp same)).1)
    · rw [concat_eq_append, ← cons_append, ← append_assoc] at queued
      obtain ⟨rfl, same⟩ := append_inj' queued rfl
      obtain rfl := singleton_inj.mp same
      obtain still | ⟨entry, mem, answered⟩ := ih rfl
      · obtain still | answered := kept request still
        · exact .inl still
        · exact .inr ⟨(c, reply''), by simp, answered⟩
      · exact .inr ⟨entry, by simp [mem], answered⟩

end

/-- In a run of safe calls the next safe call hits no assertion, no request is lost, and what an attempt has handed
out was received from one peer, with one nonce, and is in order. -/
theorem reassembles (run : Run target (new maxParallelRequests requestTimeout peers) history s) :
    (∀ c, s.Safe target history c → ∃ s' reply, s.call c = .ok (s', reply)) ∧
      (∀ before after request reply, history = before ++ (.queueRequest request, reply) :: after →
        s.Outstanding request ∨
          ∃ entry ∈ after, ∃ r ∈ entry.2.responses, r.responseN ≠ 0 ∧ r.request.Same request) ∧
      ∀ request, InOrder (attemptLog request history) ∧
        ∀ e ∈ attemptLog request history, ∃ now reply, (.handleResponse now e.1 e.2, reply) ∈ history := by
  have consistent := run.consistent
  refine ⟨fun c safe => ?_, fun _ _ _ _ queued => run.outstanding queued,
    fun request => ⟨⟨?_, ?_, consistent.indices request⟩, ?_⟩⟩
  · obtain ⟨s', reply, called, -⟩ := consistent.serves safe
    exact ⟨s', reply, called⟩
  · intro e mem e' mem'
    exact Option.some.inj ((consistent.received mem).2.symm.trans (consistent.received mem').2)
  · exact fun e mem e' mem' => consistent.nonce mem mem'
  · exact fun e mem => (consistent.received mem).1

end Runs

section Examples

def request₃ : StateSyncRequest := ⟨.self, 3, 1, 5, 0, 4, 0⟩

def chunk (nonce i n : Nat) : StateSyncResponse := ⟨.self, nonce, i, request₃, [], n⟩

def reordered : List (OutboundCall × OutboundReply) :=
  [(.queueRequest request₃, .none), (.poll 0 0, .polled (.request 7 request₃)),
    (.handleResponse 1 7 (chunk 9 1 1), .handedOut []),
    (.handleResponse 2 7 (chunk 9 0 0), .handedOut [chunk 9 0 0, chunk 9 1 1])]

theorem reassembles_reordered : ∃ s, Run 5 (new 1 10 [7]) reordered s ∧
    InOrder [(7, chunk 9 0 0), (7, chunk 9 1 1)] := by
  obtain ⟨s, run⟩ : ∃ s, Run 5 (new 1 10 [7]) reordered s := by
    show ∃ s, Run 5 (new 1 10 [7]) (((([] ++ [(.queueRequest request₃, .none)]) ++
      [(.poll 0 0, .polled (.request 7 request₃))]) ++ [(.handleResponse 1 7 (chunk 9 1 1), .handedOut [])]) ++
      [(.handleResponse 2 7 (chunk 9 0 0), .handedOut [chunk 9 0 0, chunk 9 1 1])]) s
    refine ⟨_, .snoc (.snoc (.snoc (.snoc .nil rfl rfl) (fun request due => ?_) rfl) (fun _ attempt found => ?_) rfl)
      (fun _ attempt found => ?_) rfl⟩
    · have same := due
      cases same
      exact cons_ne_nil _ _
    · cases found
      exact fun _ => ⟨rfl, by decide⟩
    · cases found
      exact fun _ => ⟨rfl, by decide⟩
  exact ⟨s, run, ((reassembles run).2.2 request₃).1⟩

def replay (s : OutboundRequests) : List OutboundCall → Except OutboundPanic (List OutboundReply)
  | [] => .ok []
  | c :: rest =>
    match s.call c with
    | .error reason => .error reason
    | .ok (s, reply) => (s.replay rest).map (reply :: ·)

/-- A chunk that arrives twice, and a version notice from the peer that a prefix is bound to, end in an assertion. A
chunk of another answer of the same peer is handed out after the first of its own. -/
theorem assertions_and_mixed_nonces :
    (new 1 10 [7]).replay [.queueRequest request₃, .poll 0 0, .handleResponse 1 7 (chunk 9 1 0),
        .handleResponse 2 7 (chunk 9 1 0)] = .error .duplicateResponseIndex ∧
      (new 1 10 [6, 7]).replay [.queueRequest request₃, .poll 0 1, .handleResponse 1 7 (chunk 9 0 0),
        .handleBadVersion 7 ⟨⟨2, 0⟩, ⟨2, 0⟩⟩, .poll 20 0] = .error .peerNotFound ∧
      (new 1 10 [7]).replay [.queueRequest request₃, .poll 0 0, .handleResponse 1 7 (chunk 8 0 0),
        .handleResponse 2 7 (chunk 9 1 1)] =
        .ok [.none, .polled (.request 7 request₃), .handedOut [chunk 8 0 0], .handedOut [chunk 9 1 1]] :=
  ⟨rfl, rfl, rfl⟩

end Examples

end OutboundRequests

end MonadBft
