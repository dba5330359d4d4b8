import Mabel.Ledger.Fold.Change

/-!
# The state as the code updates it

The code checks an event against the state it holds and then writes the effect into that very
state, field by field. `applyInPlace` follows it and leaves behind whatever has been written by
the time it stops. It writes only once every check has passed and every assertion of the write
comes before the first field, so it agrees with `apply`.
-/

namespace Mabel

open Wire Proto Validate

variable {C : Crypto}

/-- Code that works on a state in place: how it ends, and the state it leaves behind. -/
def InPlace (C : Crypto) (α : Type) : Type := LedgerState C → Checked C α × LedgerState C

/-- Code that stops leaves what it has written so far. -/
instance : Monad (InPlace C) where
  pure a := fun s => (.ok a, s)
  bind x f := fun s =>
    match x s with
    | (.ok a, s') => f a s'
    | (.error fault, s') => (.error fault, s')

namespace InPlace

variable {α : Type}

/-- The state held. -/
def held : InPlace C (LedgerState C) := fun s => (.ok s, s)

/-- A check writes nothing. -/
def check (x : Checked C α) : InPlace C α := fun s => (x, s)

/-- Write to the state. -/
def write (f : LedgerState C → LedgerState C) : InPlace C Unit := fun s => (.ok (), f s)

/-- What is left when the new state is written on success alone. -/
def settle (s : LedgerState C) : Checked C (LedgerState C) → Checked C Unit × LedgerState C
  | .ok s' => (.ok (), s')
  | .error fault => (.error fault, s)

theorem held_bind (f : LedgerState C → InPlace C α) (s : LedgerState C) :
    (held >>= f) s = f s s := rfl

/-- A check in place settles as the check does. -/
theorem check_bind {x : Checked C α} {f : α → InPlace C Unit}
    {g : α → Checked C (LedgerState C)} {s : LedgerState C}
    (h : ∀ a, f a s = settle s (g a)) : (check x >>= f) s = settle s (x >>= g) := by
  cases x with
  | ok a => exact h a
  | error fault => rfl

/-- A write after a settled step settles as the pure update does. -/
theorem then_write {x : InPlace C Unit} {c : Checked C (LedgerState C)} {s : LedgerState C}
    (h : x s = settle s c) (f : LedgerState C → LedgerState C) :
    (x >>= fun _ => write f) s = settle s (c >>= fun s' => .ok (f s')) := by
  simp only [bind, h]
  cases c <;> rfl

end InPlace

namespace LedgerState

open InPlace

/-- Cancel an invitation where it stands, if there is one to cancel. -/
def cancelInPlace : Option EventId → InPlace C Unit
  | some invitation => do
    let s ← held
    let _ ← check (Outcome.expect "the removal check found the invitation"
      (s.invitations.get? invitation))
    write fun s => { s with
      invitations := s.invitations.adjust invitation fun i => { i with status := .cancelled } }
  | none => pure ()

/-- Write the effect of a checked event, one field after another. -/
def commitEffectInPlace (seq : Nat) (id : EventId) : Effect C → InPlace C Unit
  | .seed seed => do
    write fun s => { s with declaredKind := some seed.declaredKind }
    write fun s => { s with root := some seed.root }
    write fun s => { s with ledger := some id.toIdentity }
    write fun s => { s with principals := seed.principals }
  | .witnessEndpoints endpoints => write fun s => { s with witnessEndpoints := endpoints }
  | .witnessSet witnesses signer =>
    write fun s => { s with witnessSet := some ⟨witnesses, signer, id, seq⟩ }
  | .endpoints endpoints signer =>
    write fun s => { s with endpointAdvertisement := some ⟨endpoints, signer, id, seq⟩ }
  | .attest subject signer =>
    write fun s => { s with trust := s.trust.insert id ⟨subject, signer, none⟩ }
  | .revoke target => do
    let s ← held
    let _ ← check (Outcome.expect "the revocation check found the target" (s.trust.get? target))
    write fun s =>
      { s with trust := s.trust.adjust target fun a => { a with revokedBy := some id } }
  | .invite invitation =>
    write fun s => { s with invitations := s.invitations.insert id invitation }
  | .admission invitation invitee principal => do
    let s ← held
    let _ ← check (Outcome.expect "the acceptance check found the invitation"
      (s.invitations.get? invitation))
    write fun s => { s with
      invitations := s.invitations.adjust invitation fun i => { i with status := .accepted } }
    write fun s => { s with principals := s.principals.insert invitee principal }
  | .remove target invitation wasPrincipal => do
    cancelInPlace invitation
    if wasPrincipal then write fun s => { s with principals := s.principals.remove target }
  | .profile displayName hostname email signer =>
    write fun s =>
      { s with profile := some ⟨displayName, hostname, email, signer, id, seq⟩ }

/-- Write the effect of a checked event, then the head. -/
def commitInPlace (seq : Nat) (id : EventId) (timestampMs : Nat) (effect : Effect C) :
    InPlace C Unit := do
  commitEffectInPlace seq id effect
  write fun s => { s with head := some ⟨seq, id, timestampMs⟩ }

/-- Check one received event against the state held and, if every check passes, write it. -/
def applyInPlace (event : Bytes) : InPlace C Unit := do
  let s ← held
  let seq := s.nextSeq
  check (Outcome.mapReject Reason.wire (Validate.signedEvent C event))
  let signed ← check (Outcome.expect "a validated SignedEvent decodes" (SignedEvent.decode event))
  let body ← check (Outcome.expect "a validated EventBody decodes" (EventBody.decode signed.body))
  let payload ← check (Outcome.expect "payload is required" body.payload)
  let id := eventId C signed.body
  check (Outcome.rejectIf (body.seq ≠ seq) (.wrongSeq seq body.seq))
  check (s.checkLink body)
  check (checkPosition seq payload)
  let authorKey ← check (publicKey body.authorKey "EventBody.author_key")
  let signer ← check (s.checkSigner seq authorKey)
  check (Mabel.verify authorKey (signInput signed.body) signed.signature)
  let effect ← check (s.checkSemantics id payload signer)
  commitInPlace seq id body.timestampMs effect

/-- Cancelling in place is the pure cancellation, settled. -/
theorem cancelInPlace_eq (s : LedgerState C) (invitation : Option EventId) :
    cancelInPlace invitation s =
      settle s (s.cancelInvitation invitation >>= fun i => .ok { s with invitations := i }) := by
  cases invitation with
  | none => rfl
  | some invitation =>
    rw [cancelInvitation, bind_assoc]
    exact check_bind fun _ => rfl

/-- Committing in place is the pure commit, settled. -/
theorem commitEffectInPlace_eq (s : LedgerState C) (seq : Nat) (id : EventId)
    (effect : Effect C) :
    commitEffectInPlace seq id effect s = settle s (s.commitEffect seq id effect) := by
  cases effect with
  | revoke target => exact check_bind fun _ => rfl
  | admission invitation invitee principal => exact check_bind fun _ => rfl
  | remove target invitation wasPrincipal =>
    have hcancel := cancelInPlace_eq s invitation
    cases wasPrincipal with
    | false => exact (then_write hcancel fun s => s).trans (by rw [bind_assoc]; rfl)
    | true =>
      refine (then_write hcancel fun s =>
        { s with principals := s.principals.remove target }).trans ?_
      rw [bind_assoc]
      rfl
  | _ => rfl

/-- The write ends as the pure one does, and writes all of it or nothing. -/
theorem commitInPlace_eq (s : LedgerState C) (seq : Nat) (id : EventId) (timestampMs : Nat)
    (effect : Effect C) : commitInPlace seq id timestampMs effect s =
      settle s (s.commit seq id timestampMs effect) :=
  then_write (commitEffectInPlace_eq s seq id effect) _

/-- Updating in place ends as `apply` does: the new state is left when the event is accepted
and the old one when it is not. -/
theorem applyInPlace_eq (s : LedgerState C) (event : Bytes) :
    applyInPlace event s = settle s (s.apply event) := by
  unfold applyInPlace
  rw [held_bind]
  refine check_bind fun _ => check_bind fun signed => check_bind fun body =>
    check_bind fun payload => check_bind fun _ => check_bind fun _ =>
    check_bind fun _ => check_bind fun key => check_bind fun signer =>
    check_bind fun _ => check_bind fun effect => ?_
  exact commitInPlace_eq s _ _ _ effect

end LedgerState

/-- Fold events into a state held in place, up to the first one rejected. -/
def foldInPlace (s : LedgerState C) : List Bytes →
    Outcome Empty (LedgerState C × Option (Violation C))
  | [] => .ok (s, none)
  | event :: events =>
    match LedgerState.applyInPlace event s with
    | (.ok _, s') => foldInPlace s' events
    | (.error (.reject reason), s') => .ok (s', some ⟨s.nextSeq, reason⟩)
    | (.error (.panic site), _) => Outcome.panic site

/-- The fold in place is the pure fold. -/
theorem foldInPlace_eq (events : List Bytes) : ∀ s : LedgerState C,
    foldInPlace s events = foldFrom s events := by
  induction events with
  | nil => exact fun s => rfl
  | cons event events ih =>
    intro s
    rw [foldInPlace, foldFrom, LedgerState.applyInPlace_eq]
    rcases s.apply event with (reason | site) | s'
    · rfl
    · rfl
    · exact ih s'

end Mabel
