import Mabel.Node.Push

/-!
# Reading the files into the index

The index is a cache over the ledger directories. It is rebuilt when a home is opened, one
entry is read again after a writer says so, and a read that misses looks at the directory
once. Each of these reads the files before it takes the index lock.
-/

namespace Mabel.Node

open Wire Net

variable {C : Crypto}

/-! ## One ledger directory -/

/-- What the clock reads while one directory is loaded. -/
structure LoadClock where
  /-- When a missing `head.json` is rebuilt. -/
  rebuilt : Nat
  /-- Where no head is cached. -/
  updated : Nat
  deriving DecidableEq

/-- What of a stored ledger verifies. -/
structure Served (C : Crypto) where
  state : LedgerState C
  bytes : Nat
  headSeq : Nat
  headEvent : EventId

/-- Nothing has been served yet. -/
def Served.none : Served C :=
  ⟨LedgerState.default, 0, 0, ⟨.zero idBytes⟩⟩

/-- Fold stored events; the ledger is served up to the first one that does not verify. -/
def serve (served : Served C) : List StoredEvent → Outcome StorageError (Served C)
  | [] => .ok served
  | event :: events =>
    match served.state.apply event.bytes with
    | .ok state => do
      let head ← Outcome.expect "an applied event is the head" state.head
      serve ⟨state, served.bytes + event.bytes.length, event.seq, head.eventId⟩ events
    | .error (.reject _) => .ok served
    | .error (.panic site) => Outcome.panic site

/-- Read a `.fork` file. Both events come back as the byte strings it holds. -/
def decodeForkRecord (raw : Bytes) : Option (ForkRecord C) := do
  let es ← fields raw
  let sourceEndpoint ← match bytes es 6 with
    | some slice => ((Block.ofBytes? idBytes slice).bind (PublicKey.fromBytes C)).map some
    | none => some none
  let ledger ← IdentityId.fromSlice (← bytes es 1)
  let kept ← bytes es 3
  let conflicting ← bytes es 4
  return ⟨ledger, uint es 2, kept, conflicting, uint es 5, sourceEndpoint⟩

/-- Read the listed fork records, skipping those that do not decode. -/
def readForks (store : LedgerStore C) : List (Nat × EventId) → OnFiles C (List (ForkRecord C))
  | [] => pure []
  | (seq, conflicting) :: rest => do
    let raw ← File.readFork seq conflicting
    let raw ← Program.lift (Outcome.orReject (.io (store.forkPath seq conflicting)) raw)
    let records ← readForks store rest
    pure ((decodeForkRecord raw).toList ++ records)

/-- Read one ledger directory into an index entry, or nothing when nothing in it folds. -/
def loadEntry (store : LedgerStore C) (clock : LoadClock) : OnFiles C (Option (Entry C)) := do
  let stored ← store.readAll clock.rebuilt
  if stored = [] then pure none
  else do
    let served ← Program.lift (serve Served.none stored)
    if served.state.head = none then pure none
    else do
      let noted ← File.readMeta
      let cached ← File.readHead
      let updatedMs := cached.elim clock.updated Head.updatedMs
      let listed ← File.listForks
      let forks ← readForks store listed
      pure (some
        { state := served.state
          headSeq := served.headSeq
          headEvent := served.headEvent
          bytes := served.bytes
          firstSeenMs := noted.elim updatedMs LedgerMeta.firstSeenMs
          updatedMs := updatedMs
          sourceEndpoint := noted.bind LedgerMeta.sourceEndpoint
          forks := forks.insertionSort fun a b => forkOrder a ≤ forkOrder b })

/-! ## The whole index -/

/-- Add an entry read from the files. -/
def Index.add (index : Index C) (ledger : LedgerId) (entry : Entry C) : Index C :=
  ⟨index.ledgers.insert ledger entry, index.storageUsed + entry.bytes⟩

/-- Drop an entry and the bytes it counted. -/
def Index.drop (index : Index C) (ledger : LedgerId) : Index C :=
  match index.ledgers.get? ledger with
  | some previous => ⟨index.ledgers.remove ledger, index.storageUsed - previous.bytes⟩
  | none => index

/-- A dropped ledger is not indexed. -/
theorem Index.get?_drop (index : Index C) (l l' : LedgerId) :
    (index.drop l).ledgers.get? l' = if l' = l then none else index.ledgers.get? l' := by
  rw [Index.drop]
  cases hl : index.ledgers.get? l with
  | some previous =>
    dsimp only
    rw [SortedMap.get?_remove]
    by_cases h : l' = l
    · rw [if_pos h, if_pos h]
    · rw [if_neg h, if_neg h]
  | none =>
    by_cases h : l' = l
    · rw [if_pos h, h]
      exact hl
    · rw [if_neg h]

/-- An added entry is its own ledger's. -/
theorem Index.get?_add (index : Index C) (l l' : LedgerId) (entry : Entry C) :
    (index.add l entry).ledgers.get? l' =
      if l' = l then some entry else index.ledgers.get? l' := by
  rw [Index.add, SortedMap.get?_insert]
  by_cases h : l' = l
  · rw [if_pos h, if_pos h]
  · rw [if_neg h, if_neg h]

/-- Read the directories of some ledgers into an index. -/
def loadAll (setup : Setup) (clock : LedgerId → LoadClock) (index : Index C) :
    List LedgerId → OnNode C StorageError (Index C)
  | [] => pure index
  | ledger :: ledgers => do
    let entry ← onLedger ledger (loadEntry (setup.ledger ledger) (clock ledger))
    loadAll setup clock (entry.elim index (index.add ledger)) ledgers

/-- Replace the index by what the files hold, and recheck. -/
def replaceIndex (policy : AdmissionPolicy) (index : Index C) : OnNode C StorageError Unit := do
  Shared.writeIndex index
  recheck policy index

/-- Rebuild the folded-state cache from the event files, and the advertisement verdicts with
it. -/
def reload (setup : Setup) (clock : LedgerId → LoadClock) : OnNode C StorageError Unit := do
  let ledgers ← Shared.listLedgers
  let rebuilt ← loadAll setup clock Index.default ledgers
  Shared.lockIndex
  (replaceIndex setup.policy rebuilt).andFinally StoreOp.unlockIndex

/-- Open a home: the index is built from the event files and the advertisement checked. -/
def LedgerStorage.openHome (setup : Setup) (home : NodeHome C) (endpoint : EndpointId C)
    (clock : LedgerId → LoadClock) : Outcome StorageError (LedgerStorage C) :=
  match Program.run StoreOp.exec (reload setup clock) ⟨setup, home, Index.default, ⟨endpoint, []⟩⟩
    with
  | (.ok _, s) => .ok s
  | (.error e, _) => .error e

/-- Put what was read of one ledger in the place of its entry. -/
def noteEntry (policy : AdmissionPolicy) (ledger : LedgerId) (entry : Option (Entry C)) :
    OnNode C StorageError Unit := do
  let index ← Shared.readIndex
  let index := entry.elim (index.drop ledger) ((index.drop ledger).add ledger)
  Shared.writeIndex index
  recheckFor policy index ledger

/-- Read one ledger's entry again from its event files. -/
def noteLedger (setup : Setup) (ledger : LedgerId) (clock : LoadClock) :
    OnNode C StorageError Unit := do
  let entry ← onLedger ledger (loadEntry (setup.ledger ledger) clock)
  Shared.lockIndex
  (noteEntry setup.policy ledger entry).andFinally StoreOp.unlockIndex

/-- Record a new endpoint id for this home and recheck the advertisement against it. -/
def noteEndpoint (setup : Setup) (endpoint : EndpointId C) : OnNode C StorageError Unit := do
  let was ← Shared.advertise fun advertised => { advertised with endpoint := endpoint }
  if was.endpoint = endpoint then pure ()
  else do
    Shared.lockIndex
    (do
      let index ← Shared.readIndex
      recheck setup.policy index : OnNode C StorageError Unit).andFinally StoreOp.unlockIndex

/-! ## Reads -/

/-- Where an entry ends. -/
def Entry.head (entry : Entry C) : Net.Head := ⟨entry.headSeq, entry.headEvent, entry.updatedMs⟩

/-- The entry of a ledger. -/
def readEntry (ledger : LedgerId) : OnNode C StorageError (Option (Entry C)) := do
  Shared.lockIndex
  (do
    let index ← Shared.readIndex
    pure (index.ledgers.get? ledger) : OnNode C StorageError (Option (Entry C))).andFinally
      StoreOp.unlockIndex

/-- Keep an entry read from disk. -/
def keepEntry (ledger : LedgerId) (loaded : Entry C) : OnNode C StorageError Unit := do
  let index ← Shared.readIndex
  Shared.writeIndex (index.add ledger loaded)

/-- Read one ledger the index does not know from disk and keep it. -/
def adopt (setup : Setup) (ledger : LedgerId) (clock : LoadClock) :
    OnNode C StorageError (Option Net.Head) := do
  let loaded ← (onLedger ledger (loadEntry (setup.ledger ledger) clock)).attempt
  match loaded.join with
  | none => pure none
  | some loaded => do
    Shared.lockIndex
    (keepEntry ledger loaded).andFinally StoreOp.unlockIndex
    pure (some loaded.head)

/-- Where a ledger ends. One the index has never seen is read from disk first. -/
def head (setup : Setup) (ledger : LedgerId) (clock : LoadClock) :
    OnNode C StorageError (Option Net.Head) := do
  let entry ← readEntry ledger
  match entry with
  | some entry => pure (some entry.head)
  | none => adopt setup ledger clock

end Mabel.Node
