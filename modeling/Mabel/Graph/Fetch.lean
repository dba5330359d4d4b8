import Mabel.Graph.Resolve

/-!
# Reading one ledger from every source

Every applicable source is asked, in order, rather than the walk stopping at the first that
answers. The local copy, what the caller named, the recorded hints and the configured witnesses
make the first queue; each copy that verifies adds the endpoints its own chain names. The zone of
a claimed hostname is asked only where no endpoint served a copy. Every endpoint is charged to the
dial budget before it is asked.
-/

namespace Mabel.Graph

open Node Crawl Verification

variable {C : Crypto}

/-! ## Sources -/

/-- The class a source spends from. -/
def sourceClass : FetchSource → SourceClass
  | .localCopy => .localRead
  | .callerHint _ => .callerHint
  | .peerHint _ => .peerHint
  | .nodeWitness .. => .nodeWitness
  | .ledgerEndpoint _ | .witnessIdentity .. | .legacyWitnessHint _ => .chainNamed
  | .dnsEndpoint .. => .dns

/-- Whether a source may be written back to the hints file. -/
def mayRecordHint : FetchSource → Bool
  | .localCopy | .callerHint _ => false
  | _ => true

/-- One source the plan will ask, with the endpoint to dial. -/
structure PlannedSource (C : Crypto) where
  source : FetchSource
  endpoint : Option (EndpointId C)

namespace PlannedSource

/-- The local copy. -/
def localCopy : PlannedSource C := ⟨.localCopy, none⟩

/-- One endpoint found as a kind. -/
def ofEndpoint (kind : String → FetchSource) (endpoint : EndpointId C) : PlannedSource C :=
  ⟨kind (renderId endpoint.raw), some endpoint⟩

/-- One endpoint of a witness identity found as a kind. -/
def ofWitness (kind : String → String → FetchSource) (witness : IdentityId)
    (endpoint : EndpointId C) : PlannedSource C :=
  ⟨kind (renderId witness.raw) (renderId endpoint.raw), some endpoint⟩

end PlannedSource

/-! ## The plan -/

/-- Whether a source is planned for the endpoint of another. -/
def alreadyPlanned (planned : List (PlannedSource C)) (next : PlannedSource C) : Bool :=
  planned.any fun asked => asked.endpoint = next.endpoint

/-- Add a source unless its endpoint was planned or the dial budget refuses it. -/
def pushAdmitted {ε : Type} (planned : List (PlannedSource C)) (next : PlannedSource C) :
    OnOperation C ε (List (PlannedSource C)) :=
  if alreadyPlanned planned next then pure planned
  else
    match next.endpoint with
    | none => pure (planned ++ [next])
    | some endpoint => do
      if ← Ask.admitDial (sourceClass next.source) endpoint then pure (planned ++ [next])
      else pure planned

/-- Add sources one after another. -/
def pushAll {ε : Type} (planned : List (PlannedSource C)) :
    List (PlannedSource C) → OnOperation C ε (List (PlannedSource C))
  | [] => pure planned
  | next :: rest => do
    let planned ← pushAdmitted planned next
    pushAll planned rest

/-- Add the endpoints of witnesses, each resolved. -/
def planWitnesses (callerHints : List (EndpointId C)) (planned : List (PlannedSource C)) :
    List IdentityId → OnOperation C String (List (PlannedSource C))
  | [] => pure planned
  | witness :: rest => do
    let endpoints ← witnessEndpoints callerHints witness
    let planned ← pushAll planned (endpoints.map (.ofWitness .nodeWitness witness))
    planWitnesses callerHints planned rest

/-- Sources 1 to 4 for a ledger. -/
def planSources (callerHints : List (EndpointId C)) (ledger : LedgerId)
    (learned : List (EndpointId C)) : OnOperation C String (List (PlannedSource C)) := do
  let held ← Ask.holds ledger
  let planned ← pushAll (if held then [.localCopy] else [])
    (callerHints.map (.ofEndpoint .callerHint))
  let peers ← Ask.peers
  let now ← Ask.now
  let planned ← pushAll planned
    ((peers.hintsAt ledger now ++ learned).map (.ofEndpoint .peerHint))
  let config ← Ask.config
  planWitnesses callerHints planned (config.map WitnessEntry.identity)

/-- Add a source a chain names unless its endpoint was planned before. -/
def addNamed {ε : Type} (planned : List (PlannedSource C)) (extra : List (PlannedSource C)) :
    List (PlannedSource C) → OnOperation C ε (List (PlannedSource C))
  | [] => pure extra
  | next :: rest => do
    let extra ← if alreadyPlanned planned next then pure extra else pushAdmitted extra next
    addNamed planned extra rest

/-- Add the endpoints of the witnesses a chain names, each resolved. -/
def addNamedWitnesses (callerHints : List (EndpointId C)) (planned extra : List (PlannedSource C)) :
    List IdentityId → OnOperation C String (List (PlannedSource C))
  | [] => pure extra
  | witness :: rest => do
    let endpoints ← witnessEndpoints callerHints witness
    let extra ← addNamed planned extra (endpoints.map (.ofWitness .witnessIdentity witness))
    addNamedWitnesses callerHints planned extra rest

/-- Sources 5 to 7 off a copy that verified, less what was planned before. -/
def chainNamedSources (callerHints : List (EndpointId C)) (planned : List (PlannedSource C))
    (summary : LedgerSummary C) : OnOperation C String (List (PlannedSource C)) := do
  let extra ← addNamed planned [] (summary.endpoints.map (.ofEndpoint .ledgerEndpoint))
  let extra ← addNamedWitnesses callerHints planned extra summary.witnessIdentities
  addNamed planned extra (summary.legacyWitnesses.map (.ofEndpoint .legacyWitnessHint))

/-! ## Reading -/

/-- Read the local copy of a ledger. -/
def readCopy (ledger : LedgerId) : Except String (LoadedLedger C) → Served C
  | .error detail => .unverified detail
  | .ok loaded =>
    if loaded.events = [] then .nothing
    else if loaded.violation.isSome ∨ loaded.state.ledger ≠ some ledger then
      .unverified s!"the local copy of {linkPrefix}{ledger.display} does not verify"
    else .chain loaded

/-- Ask one source. -/
def read {ε : Type} (ledger : LedgerId) (next : PlannedSource C) : OnOperation C ε (Served C) :=
  match next.endpoint with
  | none => do
    let copy ← Ask.load ledger
    pure (readCopy ledger copy)
  | some endpoint => Ask.candidate endpoint ledger

/-- What the sources of a fetch have answered. -/
structure Hearings (C : Crypto) where
  tried : List FetchSource
  candidates : List (Copy C)
  failed : List (EndpointId C)
  invalid : Option String
  /-- The endpoints asked, in order. No code reads it. -/
  asked : List (EndpointId C)

namespace Hearings

/-- No source has been asked. -/
def none : Hearings C := ⟨[], [], [], .none, []⟩

/-- Keep the first complaint. -/
def fault (answers : Hearings C) (detail : String) : Hearings C :=
  { answers with invalid := answers.invalid.or (some detail) }

/-- Take down what a source answered. -/
def hear (answers : Hearings C) (next : PlannedSource C) (served : Served C) : Hearings C :=
  let answers := { answers with
    tried := answers.tried ++ [next.source]
    asked := answers.asked ++ next.endpoint.toList }
  match served with
  | .chain loaded => { answers with candidates := answers.candidates ++ [(next.source, loaded)] }
  | .nothing => { answers with failed := answers.failed ++ next.endpoint.toList }
  | .unverified detail => answers.fault detail

end Hearings

/-- A copy that verified adds the sources its chain names to the queue. -/
def follow (callerHints : List (EndpointId C)) (planned : List (PlannedSource C))
    (answers : Hearings C) :
    Served C → OnOperation C Empty (List (PlannedSource C) × Hearings C)
  | .chain loaded => do
    match ← (chainNamedSources callerHints planned (.of loaded)).conclude id with
    | .ok named => pure (planned ++ named, answers)
    | .error (.reject detail) => pure (planned, answers.fault detail)
    | .error (.panic site) => Program.lift (Outcome.panic site)
  | _ => pure (planned, answers)

/-- Ask the queue from a position on, with so many rounds left. -/
def gatherFrom (callerHints : List (EndpointId C)) (ledger : LedgerId) :
    Nat → List (PlannedSource C) → Nat → Hearings C →
      OnOperation C Empty (Option (List (PlannedSource C) × Hearings C))
  | 0, _, _, _ => pure none
  | rounds + 1, planned, index, answers =>
    match planned[index]? with
    | none => pure (some (planned, answers))
    | some next => do
      if ← Ask.expired then pure (some (planned, answers))
      else do
        let served ← read ledger next
        let (planned, answers) ← follow callerHints planned (answers.hear next served) served
        gatherFrom callerHints ledger rounds planned (index + 1) answers

/-! ## The zone -/

/-- The hostname the local copy of a ledger claims, or the one the stored generation recorded. -/
def claimedHostname {ε : Type} (ledger : LedgerId) : OnOperation C ε (Option String) := do
  let copy ← Ask.load ledger
  match copy.toOption.bind fun loaded =>
      if loaded.events = [] then none else loaded.state.profile.bind Profile.hostname with
  | some hostname => pure (some hostname)
  | none => Ask.generationHostname ledger

/-- The endpoints of a zone the dial budget lets through. -/
def admittedDns {ε : Type} (hostname : String) :
    List (EndpointId C) → OnOperation C ε (List (PlannedSource C))
  | [] => pure []
  | endpoint :: rest => do
    let admitted ← Ask.admitDial .dns endpoint
    let planned ← admittedDns hostname rest
    pure (if admitted then .ofEndpoint (.dnsEndpoint hostname) endpoint :: planned else planned)

/-- Source 8: the records of the hostname a ledger claims. -/
def dnsSources {ε : Type} (hasResolver : Bool) (ledger : LedgerId) :
    OnOperation C ε (List (PlannedSource C)) := do
  if !hasResolver then pure []
  else
    match ← claimedHostname ledger with
    | none => pure []
    | some hostname =>
      match ← Ask.lookupTxt (queryName hostname) with
      | none => pure []
      | some records => admittedDns hostname (endpointsForClaim C records ledger)

/-- Ask sources until the deadline. -/
def askAll {ε : Type} (ledger : LedgerId) (answers : Hearings C) :
    List (PlannedSource C) → OnOperation C ε (Hearings C)
  | [] => pure answers
  | next :: rest => do
    if ← Ask.expired then pure answers
    else do
      let served ← read ledger next
      askAll ledger (answers.hear next served) rest

/-- Ask the zone where no endpoint served a copy. -/
def askDns {ε : Type} (hasResolver : Bool) (ledger : LedgerId) (answers : Hearings C) :
    OnOperation C ε (Hearings C) := do
  if answers.candidates.any fun copy => (endpointOf copy.1).isSome then pure answers
  else if ← Ask.expired then pure answers
  else do
    let named ← dnsSources hasResolver ledger
    askAll ledger answers named

/-! ## The hints -/

/-- Endpoints that sources spell, of the sources with a property. -/
def spelled (C : Crypto) (p : FetchSource → Bool) (tried : List FetchSource) :
    List (EndpointId C) :=
  ((tried.filter p).filterMap endpointOf).filterMap (parseEndpointId C)

/-- The failures a fetch counts: not of what the caller named. -/
def countedFailures (outcome : FetchOutcome C) (failed : List (EndpointId C)) :
    List (EndpointId C) :=
  failed.filter fun endpoint =>
    endpoint ∉ spelled C (fun source => !mayRecordHint source) outcome.sourcesTried

/-- Count a failure of each endpoint. -/
def recordFailures (peers : Peers C) (ledger : LedgerId) (failed : List (EndpointId C)) :
    Peers C :=
  failed.foldl (fun peers endpoint => (peers.recordFailure ledger endpoint).2) peers

/-- The hints after a fetch: a success for the endpoint that served the kept copy, a failure for
every endpoint that did not answer. -/
def recordHints (ledger : LedgerId) (outcome : FetchOutcome C) (failed : List (EndpointId C))
    (peers : Peers C) (servedAt prunedAt : Nat) : Peers C :=
  let failures := recordFailures peers ledger (countedFailures outcome failed)
  let served := ((outcome.source.filter mayRecordHint).bind endpointOf).bind (parseEndpointId C)
  let kept := served.elim failures fun endpoint => failures.recordSuccess ledger endpoint servedAt
  (kept.prune prunedAt).2

/-! ## Fetching -/

/-- One fetch: what it answers, and what it did on the way, which no code reads. -/
structure FetchRun (C : Crypto) where
  outcome : FetchOutcome C
  /-- The queue of sources 1 to 7. -/
  planned : List (PlannedSource C)
  /-- What sources 1 to 7 answered. -/
  gathered : Hearings C
  /-- What all sources answered. -/
  answers : Hearings C

/-- Read a ledger from every applicable source, in order, asking so many of the queue. -/
def fetch (callerHints : List (EndpointId C)) (hasResolver : Bool) (rounds : Nat)
    (ledger : LedgerId) (learned : List (EndpointId C)) :
    OnOperation C Empty (Option (FetchRun C)) := do
  match ← (planSources callerHints ledger learned).conclude id with
  | .error (.panic site) => Program.lift (Outcome.panic site)
  | .error (.reject detail) => do
    let now ← Ask.now
    pure (some ⟨.invalid now ledger [] detail, [], .none, .none⟩)
  | .ok planned => do
    match ← gatherFrom callerHints ledger rounds planned 0 .none with
    | none => pure none
    | some (planned, gathered) => do
      let answers ← askDns hasResolver ledger gathered
      let now ← Ask.now
      let outcome := FetchOutcome.decide now ledger answers.tried answers.candidates
        answers.invalid
      Ask.updatePeers (recordHints ledger outcome answers.failed)
      pure (some ⟨outcome, planned, gathered, answers⟩)

end Mabel.Graph
