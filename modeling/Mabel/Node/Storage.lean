import Mabel.Core.Assignment
import Mabel.Net.Wire
import Mabel.Node.LedgerStore

/-!
# What a node holds and what it admits

A node home with an index over it: for each ledger the folded state, where it ends, how
many bytes it takes and the forks recorded for it. The admission rule and the caps are
decisions over this state; neither writes anything.

Counts and byte totals are of data the machine holds, so they are natural numbers here.
-/

namespace Mabel.Node

open Wire Net

variable {C : Crypto}

/-! ## The home -/

/-- What a home keeps of one identity, as far as signing goes. -/
structure IdentityFiles where
  /-- `active.key` is there. -/
  activeKey : Bool
  /-- The link of a readable `meta.json`. -/
  controlledBy : Option IdentityId
  deriving DecidableEq

/-- A node home. -/
structure NodeHome (C : Crypto) where
  identities : SortedMap IdentityId IdentityFiles
  files : Assignment LedgerId (LedgerFiles C) LedgerFiles.none

namespace NodeHome

/-- A home with identities of its own and no ledger. -/
def empty (identities : SortedMap IdentityId IdentityFiles) : NodeHome C := ⟨identities, .empty⟩

/-- Whether an identity signs under a key of its own. -/
def keysItself (home : NodeHome C) (identity : IdentityId) : Bool :=
  (home.identities.get? identity).any IdentityFiles.activeKey

/-- Which local identity's active key signs for an identity. The link is followed once. -/
def signingIdentity (home : NodeHome C) (identity : IdentityId) : IdentityId :=
  if home.keysItself identity then identity
  else
    match (home.identities.get? identity).bind IdentityFiles.controlledBy with
    | some controller => if controller ≠ identity then controller else identity
    | none => identity

/-- Whether this home holds a key that may sign for an identity. -/
def canSignFor (home : NodeHome C) (identity : IdentityId) : Bool :=
  home.keysItself (home.signingIdentity identity)

/-- Every ledger with a directory, sorted. -/
def ledgers (home : NodeHome C) : List LedgerId :=
  (home.files.listed.entries.filter fun e => e.2.present).map Prod.fst

end NodeHome

/-! ## The index -/

/-- Which pushes a home takes. -/
structure AdmissionPolicy where
  /-- The witness identities this home witnesses for. Empty means nobody. -/
  witnessFor : List IdentityId
  /-- Whether the retired tag-11 clause may admit a push. -/
  acceptLegacyWitnessConfig : Bool
  deriving DecidableEq

/-- Why a `witness_for` entry does not admit a ledger this home does not store. -/
inductive AdvertisementGap where
  | noLocalCopy
  | advertisesNothing
  | advertisesOtherEndpoints
  deriving DecidableEq, Repr

/-- The sentence the log line and the node document carry. -/
def AdvertisementGap.reason : AdvertisementGap → String
  | .noLocalCopy => "this home holds no copy of that identity's ledger"
  | .advertisesNothing => "that identity's ledger advertises no endpoint"
  | .advertisesOtherEndpoints =>
    "that identity's ledger advertises other endpoints and not this one"

/-- One `witness_for` entry and whether it admits a new ledger. -/
structure WitnessForEntry where
  identity : IdentityId
  gap : Option AdvertisementGap
  deriving DecidableEq

/-- Whether this entry admits a ledger this home does not already store. -/
def WitnessForEntry.advertised (entry : WitnessForEntry) : Bool := entry.gap.isNone

/-- The endpoint a home answers on and what each `witness_for` entry says about it. -/
structure Advertised (C : Crypto) where
  endpoint : EndpointId C
  entries : List WitnessForEntry
  deriving DecidableEq

/-- The caps a node enforces. -/
structure StorageCaps where
  eventsPerLedger : Nat
  bytesPerLedger : Nat
  ledgers : Nat
  /-- Fork records one ledger may hold before recording stops. -/
  forkRecords : UInt32
  /-- Bytes of event data this node accepts before refusing more. -/
  storageCapacity : Nat
  deriving DecidableEq

/-- One ledger in the index. -/
structure Entry (C : Crypto) where
  /-- The fold of the stored events. -/
  state : LedgerState C
  headSeq : Nat
  headEvent : EventId
  /-- Bytes the stored events take. -/
  bytes : Nat
  firstSeenMs : Nat
  updatedMs : Nat
  sourceEndpoint : Option (EndpointId C)
  /-- The fork records held, by ascending sequence then conflicting id. -/
  forks : List (ForkRecord C)
  deriving DecidableEq

namespace Entry

/-- How many events are stored. -/
def eventCount (entry : Entry C) : Nat := entry.headSeq + 1

/-- Whether fork recording has stopped for this ledger. -/
def forksTruncated (entry : Entry C) (cap : UInt32) : Bool :=
  decide (UInt32.ofNat entry.forks.length ≥ cap)

end Entry

/-- The whole index, by ascending ledger id. -/
structure Index (C : Crypto) where
  ledgers : SortedMap LedgerId (Entry C)
  storageUsed : Nat
  deriving DecidableEq

/-- The index of a home that holds nothing. -/
def Index.default : Index C := ⟨.empty, 0⟩

/-- What one node is set up with, and whether its build checks sums for overflow. -/
structure Setup where
  root : String
  caps : StorageCaps
  policy : AdmissionPolicy
  overflowChecks : Bool
  deriving DecidableEq

/-- The store of one ledger under the home's root. -/
def Setup.ledger (setup : Setup) (ledger : LedgerId) : LedgerStore C :=
  ⟨ledger, s!"{setup.root}/ledgers/{ledger.display}", s!"{setup.root}/forks/{ledger.display}"⟩

/-- One node's ledgers, its folded-state cache and what it knows of its advertisement. -/
structure LedgerStorage (C : Crypto) where
  setup : Setup
  home : NodeHome C
  index : Index C
  advertised : Advertised C

/-- A gap or an unreadable event. -/
def malformed (atSeq : Nat) (msg : String) : StoreError := .rejected ⟨.malformed, atSeq, msg⟩

/-- A cap this node enforces. -/
def tooLarge (msg : String) : StoreError := .rejected (.new .tooLarge msg)

/-- A failure of the files under the store. -/
def unavailable (error : StorageError) : StoreError := .unavailable error.display

/-! ## Admission -/

/-- The identities the latest witness set names. -/
def witnessIdentities (state : LedgerState C) : List IdentityId :=
  (state.witnessSet.map WitnessSet.witnesses).getD []

/-- The endpoints the latest advertisement lists. -/
def endpoints (state : LedgerState C) : List (EndpointId C) :=
  (state.endpointAdvertisement.map EndpointAdvertisement.endpoints).getD []

/-- Whether a state's witness set names one of some identities. -/
def names (state : LedgerState C) (witnesses : List IdentityId) : Bool :=
  (witnessIdentities state).any fun witness => witnesses.contains witness

/-- Whether the local copy of a witness advertises an endpoint, and why not when it does
not. -/
def gapFor (index : Index C) (witness : IdentityId) (endpoint : EndpointId C) :
    Option AdvertisementGap :=
  match index.ledgers.get? witness with
  | none => some .noLocalCopy
  | some entry =>
    if (endpoints entry.state).isEmpty then some .advertisesNothing
    else if !(endpoints entry.state).contains endpoint then some .advertisesOtherEndpoints
    else none

/-- The verdict on every `witness_for` entry against an index. -/
def verdicts (policy : AdmissionPolicy) (index : Index C) (endpoint : EndpointId C) :
    List WitnessForEntry :=
  policy.witnessFor.map fun identity => ⟨identity, gapFor index identity endpoint⟩

/-- Why a push was not admitted, in the words of the rule that refused it. -/
def refusal (ledger : LedgerId) (post : LedgerState C) (entries : List WitnessForEntry) :
    StoreError :=
  if entries.isEmpty then
    .notAdmitted (s!"this home witnesses for nobody, so it does not take pushes for " ++
      s!"{linkPrefix}{ledger.display}")
  else
    -- A named entry that does not advertise this home is what an operator can act on.
    match entries.findSome? fun entry => entry.gap.bind fun gap =>
        if (witnessIdentities post).contains entry.identity then some (entry.identity, gap)
        else none with
    | some (identity, gap) =>
      .notAdmitted (s!"{linkPrefix}{ledger.display} names {linkPrefix}{identity.display} as a " ++
        s!"witness and this home witnesses for it, but {gap.reason}, so this home takes no " ++
        "ledger it does not already store under it")
    | none =>
      .notAdmitted (s!"the witness set of {linkPrefix}{ledger.display} names none of the " ++
        s!"{entries.length} identities this home witnesses for")

/-- The retired tag-11 clause, gated on a non-empty `witness_for` and on the switch. -/
def legacyAdmits (policy : AdmissionPolicy) (endpoint : EndpointId C)
    (pre : Option (LedgerState C)) (post : LedgerState C) : Bool :=
  if policy.witnessFor.isEmpty || !policy.acceptLegacyWitnessConfig then false
  else
    let listed := fun state : LedgerState C => state.witnessEndpoints.contains endpoint
    pre.any listed || listed post

/-- The identities whose local copy advertises this home. -/
def advertising (entries : List WitnessForEntry) : List IdentityId :=
  (entries.filter WitnessForEntry.advertised).map WitnessForEntry.identity

/-- Whether a push is admitted, given whether this home signs for the ledger, the state it
stores and the state the push folds to. -/
def admits (canSign : Bool) (policy : AdmissionPolicy) (advertised : Advertised C)
    (pre : Option (LedgerState C)) (post : LedgerState C) : Bool :=
  -- Clause 1: this home holds a signing key for the ledger.
  canSign ||
  -- Clause 2: the stored witness set names an identity this home witnesses for.
  pre.any (fun pre => names pre policy.witnessFor) ||
  -- Clause 3: the pushed witness set names one that advertises this home.
  names post (advertising advertised.entries) ||
  -- Clause 4, twice gated and off by default.
  legacyAdmits policy advertised.endpoint pre post

/-! ## Caps -/

/-- The caps, checked before anything is written. -/
def checkCaps (caps : StorageCaps) (index : Index C) (ledger : LedgerId) (events bytes : Nat) :
    Outcome StoreError Unit := do
  let entry := index.ledgers.get? ledger
  let heldEvents := entry.elim 0 Entry.eventCount
  let heldBytes := entry.elim 0 Entry.bytes
  Outcome.rejectIf (heldEvents + events > caps.eventsPerLedger)
    (tooLarge (s!"the ledger would hold {heldEvents + events} events, over the " ++
      s!"{caps.eventsPerLedger}-event cap"))
  Outcome.rejectIf (heldBytes + bytes > caps.bytesPerLedger)
    (tooLarge (s!"the ledger would hold {heldBytes + bytes} bytes, over the " ++
      s!"{caps.bytesPerLedger}-byte cap"))
  Outcome.rejectIf (entry = none ∧ index.ledgers.entries.length ≥ caps.ledgers)
    (tooLarge s!"this home already holds its cap of {caps.ledgers} ledgers")
  Outcome.rejectIf (index.storageUsed + bytes > caps.storageCapacity)
    (tooLarge (s!"this home would store {index.storageUsed + bytes} bytes, over its " ++
      s!"{caps.storageCapacity}-byte capacity"))

/-- The caps leave room for some events of a ledger. -/
structure Room (caps : StorageCaps) (index : Index C) (ledger : LedgerId) (events bytes : Nat) :
    Prop where
  count : (index.ledgers.get? ledger).elim 0 Entry.eventCount + events ≤ caps.eventsPerLedger
  size : (index.ledgers.get? ledger).elim 0 Entry.bytes + bytes ≤ caps.bytesPerLedger
  ledgers : index.ledgers.get? ledger = none → index.ledgers.entries.length < caps.ledgers
  capacity : index.storageUsed + bytes ≤ caps.storageCapacity

/-- The cap check passes exactly when there is room. -/
theorem checkCaps_eq_ok {caps : StorageCaps} {index : Index C} {ledger : LedgerId}
    {events bytes : Nat} {u : Unit} :
    checkCaps caps index ledger events bytes = .ok u ↔ Room caps index ledger events bytes := by
  simp only [checkCaps, Outcome.bind_eq_ok, Outcome.rejectIf_eq_ok, not_lt, gt_iff_lt, ge_iff_le,
    not_and, not_le, exists_const]
  constructor
  · rintro ⟨hcount, hsize, hledgers, hcapacity⟩
    exact ⟨hcount, hsize, hledgers, hcapacity⟩
  · intro h
    exact ⟨h.count, h.size, h.ledgers, h.capacity⟩

/-- A failed cap check is a `TOO_LARGE` rejection. -/
theorem checkCaps_error {caps : StorageCaps} {index : Index C} {ledger : LedgerId}
    {events bytes : Nat} {e : Fault StoreError}
    (h : checkCaps caps index ledger events bytes = .error e) :
    ∃ msg, e = .reject (tooLarge msg) := by
  simp only [checkCaps, Outcome.rejectIf] at h
  split_ifs at h <;> simp only [Outcome.ok_bind, Outcome.error_bind, Outcome.reject,
    Except.error.injEq, reduceCtorEq] at h <;> exact ⟨_, h.symm⟩

end Mabel.Node
