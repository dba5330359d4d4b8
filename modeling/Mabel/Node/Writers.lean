import Mabel.Node.Files
import Mabel.Node.Threads

/-!
# Wallet appends beside pushes

Wallet appends on a ledger wait for one another at its append lock, and pushes at the index
lock; nothing keeps an append and a push apart. Both end in the append of the ledger store,
which reads the head, checks every event file it is about to write and then writes. As long
as no other writer starts between a head that was read and the head that is written, no event
is lost; where one does, an event file is overwritten.
-/

namespace Mabel.Node

open Wire Proto Net Program

variable {C : Crypto} {l : LedgerId}

/-! ## Writers -/

/-- A call that writes a ledger. -/
inductive Writer (C : Crypto) where
  | push (call : PushCall C)
  | append (call : WalletCall C)

/-- What a writer returned. -/
inductive Report (C : Crypto) where
  | pushed (call : PushCall C) (result : Outcome StoreError PushOutcome)
  | appended (call : WalletCall C) (result : Outcome (WalletError C) AppendedEvent)

def Report.ledger : Report C → LedgerId
  | .pushed call _ => call.ledger
  | .appended call _ => call.ledger

namespace Writer

def ledger : Writer C → LedgerId
  | .push call => call.ledger
  | .append call => call.ledger

def program (setup : Setup) : Writer C → Program (StoreOp C) StoreOp.Reply Empty (Report C)
  | .push call => (Node.push setup call).conclude (Report.pushed call)
  | .append call => (walletAppend setup call).conclude (Report.appended call)

end Writer

/-- Whether an operation begins to write a ledger's events or to rebuild its head: the append
of the store starts with the directory, and a head that is missing is put back. -/
def begins (l : LedgerId) (s : LedgerStorage C) : StoreOp C → Bool
  | .file ledger .createDir => ledger == l
  | .file ledger .readHead => ledger == l && (s.filesOf l).headFile.isNone
  | _ => false

/-- A thread is at work on the events of a ledger from where it begins to where it has
written the head, or to its end. -/
def writing (l : LedgerId) (atWork : Bool) : (op : StoreOp C) → op.Reply → Bool
  | .file ledger .createDir, _ => atWork || ledger == l
  | .file ledger .readHead, reply => atWork || (ledger == l && Option.isNone reply)
  | .file ledger (.writeHead _), _ => atWork && !(ledger == l)
  | _, _ => atWork

/-- How writers share a home. -/
abbrev writerSharing (l : LedgerId) :
    Sharing (StoreOp C) StoreOp.Reply (LedgerStorage C) Lock (Mode Bool) :=
  sharing (writing l) false

/-- No thread begins to write a ledger's events while another is at work on them. -/
def OneAtWork (l : LedgerId) (s : LedgerStorage C) (_ : Mode Bool) (op : StoreOp C)
    (other : Mode Bool) : Prop := other.work = true → begins l s op = false

instance (l : LedgerId) (s : LedgerStorage C) (m : Mode Bool) (op : StoreOp C)
    (other : Mode Bool) : Decidable (OneAtWork l s m op other) :=
  inferInstanceAs (Decidable (_ → _))

/-- Some writers on a home, none of which has started. -/
def writers (l : LedgerId) (s : LedgerStorage C) (calls : List (Writer C)) :
    Pool (StoreOp C) StoreOp.Reply (LedgerStorage C) (Mode Bool) (Report C) :=
  ⟨s, calls.map fun call => ⟨call.program s.setup, (writerSharing l (C := C)).resting⟩⟩

/-! ## What is kept -/

/-- An event is stored at a sequence of a ledger. -/
def StoredAt (s : LedgerStorage C) (l : LedgerId) (seq : Nat) (bytes : Bytes) : Prop :=
  (s.filesOf l).events.get? seq = some bytes

/-- No event file of a ledger is lost or overwritten with other bytes. -/
def Retains (l : LedgerId) (s t : LedgerStorage C) : Prop :=
  ∀ seq bytes, StoredAt s l seq bytes → StoredAt t l seq bytes

/-- The event files are a log, and the head cache names the last event of it. -/
def HeadNamesLast (files : LedgerFiles C) : Prop :=
  ∃ log, files.Holds log ∧ match files.headFile with
    | none => log = []
    | some head => head.seq + 1 = log.length ∧ ∃ bytes signed, log.getLast? = some bytes ∧
      SignedEvent.decode bytes = some signed ∧ eventId C signed.body = head.eventId

/-- The event files and the head cache of a ledger are the same in two states. -/
def SameEvents (l : LedgerId) (s t : LedgerStorage C) : Prop :=
  (t.filesOf l).events = (s.filesOf l).events ∧ (t.filesOf l).headFile = (s.filesOf l).headFile

/-- What a success promises: the events are stored. -/
def Report.Committed (s : LedgerStorage C) : Report C → Prop
  | .pushed call (.ok _) => ∀ first, call.events.head?.bind signedEventSeq = some first →
    ∀ (i : Nat) event, call.events[i]? = some event → StoredAt s call.ledger (first + i) event
  | .appended call (.ok landed) => StoredAt s call.ledger landed.seq landed.bytes
  | _ => True

theorem Retains.refl (s : LedgerStorage C) : Retains l s s := fun _ _ h => h

theorem Retains.trans {s t u : LedgerStorage C} (h : Retains l s t) (h' : Retains l t u) :
    Retains l s u := fun seq bytes hs => h' seq bytes (h seq bytes hs)

/-- Files with the same events retain them. -/
theorem SameEvents.retains {s t : LedgerStorage C} (h : SameEvents l s t) : Retains l s t := by
  intro seq bytes hs
  rw [StoredAt, h.1]
  exact hs

/-- Files with the same events and head name the same last event. -/
theorem SameEvents.headNamesLast {s t : LedgerStorage C} (h : SameEvents l s t)
    (hs : HeadNamesLast (s.filesOf l)) : HeadNamesLast (t.filesOf l) := by
  obtain ⟨log, hholds, hhead⟩ := hs
  refine ⟨log, hholds.of_events h.1, ?_⟩
  rw [h.2]
  exact hhead

/-- A success lasts as long as events are retained. -/
theorem Report.Committed.retains {s t : LedgerStorage C} {report : Report C}
    (hledger : report.ledger = l) (h : Retains l s t) (hs : report.Committed s) :
    report.Committed t := by
  subst hledger
  cases report with
  | pushed call result =>
    cases result with
    | ok outcome => exact fun first hfirst i event hi => h _ _ (hs first hfirst i event hi)
    | error e => trivial
  | appended call result =>
    cases result with
    | ok landed => exact h _ _ hs
    | error e => trivial

/-! ## The discipline -/

/-- What the other threads may do beside a thread. -/
structure WriterRely (l : LedgerId) (m : Mode Bool) (s t : LedgerStorage C) : Prop where
  retains : Retains l s t
  same : m.work = true → SameEvents l s t
  index : m.Indexed → t.index = s.index

/-- What a step does for the other threads. -/
structure WriterGuarantee (l : LedgerId) (m m' : Mode Bool) (s t : LedgerStorage C) : Prop where
  retains : Retains l s t
  same : m.work = false → SameEvents l s t
  index : ¬ m.Indexed → t.index = s.index
  /-- Work ends with the head in place. -/
  ends : m.work = true → m'.work = false → HeadNamesLast (t.filesOf l)

/-- At most one thread is at work and at most one holds the index lock; the head is in place
while nobody is at work. -/
structure WriterInvariant (l : LedgerId) (modes : List (Mode Bool)) (s : LedgerStorage C) :
    Prop where
  atWork : Exclusive (fun m : Mode Bool => m.work = true) modes
  indexed : Exclusive Mode.Indexed modes
  settled : (∀ m ∈ modes, m.work = false) → HeadNamesLast (s.filesOf l)

/-- A thread that was not at work and is has performed an operation that begins. -/
theorem begins_of_writing {s : LedgerStorage C} {op : StoreOp C}
    (h : writing l false op (op.exec s).1 = true) : begins l s op = true := by
  cases op with
  | file ledger op =>
    cases op with
    | createDir => simpa [writing, begins] using h
    | readHead =>
      simp only [writing, Bool.false_or, Bool.and_eq_true] at h
      obtain ⟨hledger, hnone⟩ := h
      have heq : ledger = l := by simpa using hledger
      subst heq
      rw [begins, hledger, Bool.true_and]
      exact hnone
    | _ => simp [writing] at h
  | _ => simp [writing] at h

/-- Where a thread begins nobody else is at work, so the head is in place. -/
theorem WriterInvariant.begun {modes : List (Mode Bool)} {s : LedgerStorage C} {i : Nat}
    {m : Mode Bool} {op : StoreOp C} (h : WriterInvariant l modes s) (hi : modes[i]? = some m)
    (hapart : ∀ other ∈ modes.eraseIdx i, OneAtWork l s m op other) (hm : m.work = false)
    (hbegins : begins l s op = true) :
    HeadNamesLast (s.filesOf l) ∧ ∀ other ∈ modes.eraseIdx i, other.work = false := by
  have hothers : ∀ other ∈ modes.eraseIdx i, other.work = false := by
    intro other hother
    by_contra hwork
    rw [Bool.not_eq_false] at hwork
    rw [hapart other hother hwork] at hbegins
    simp at hbegins
  refine ⟨h.settled fun other hother => ?_, hothers⟩
  rcases mem_cases hi hother with rfl | hother
  · exact hm
  · exact hothers other hother

/-- The discipline of the writers of a ledger. -/
def writerDiscipline (l : LedgerId) : Discipline (writerSharing l (C := C)) where
  apart := OneAtWork l
  rely := WriterRely l
  guarantee := WriterGuarantee l
  invariant := WriterInvariant l
  finds m op s := m.work = false → begins l s op = true → HeadNamesLast (s.filesOf l)
  finds_of := by
    intro modes s i m op h hi hapart _ hm hbegins
    exact (h.begun hi hapart hm hbegins).1
  rely_of := by
    intro modes s i m op h hi hapart hguarantee other hother
    refine ⟨hguarantee.retains, fun hwork => ?_, fun hindexed => ?_⟩
    · apply hguarantee.same
      by_contra hm
      rw [Bool.not_eq_false] at hm
      exact h.atWork.others hi hm other hother hwork
    · exact hguarantee.index fun hm => h.indexed.others hi hm other hother hindexed
  invariant_of := by
    intro modes s i m op h hi hapart hfree hguarantee
    refine ⟨h.atWork.set fun hwork => ?_, indexed_set h.indexed hi hfree, fun hall => ?_⟩
    · intro other hother
      cases hm : m.work with
      | true => exact h.atWork.others hi hm other hother
      | false =>
        change writing l m.work op _ = true at hwork
        rw [hm] at hwork
        have := (h.begun hi hapart hm (begins_of_writing hwork)).2 other hother
        simp [this]
    · have hlt := (List.getElem?_eq_some_iff.mp hi).1
      have hturn := hall _ (List.mem_set hlt _)
      cases hm : m.work with
      | true => exact hguarantee.ends hm hturn
      | false =>
        refine (hguarantee.same hm).headNamesLast (h.settled fun other hother => ?_)
        rcases mem_cases hi hother with rfl | hother
        · exact hm
        · exact hall other (mem_set_of_mem_eraseIdx hother _)
  invariant_return := by
    intro modes s i m h hi hguarantee
    refine ⟨h.atWork.set fun hwork => by simp [sharing] at hwork,
      h.indexed.set fun hindexed => by simp [sharing, Mode.Indexed] at hindexed, fun hall => ?_⟩
    cases hm : m.work with
    | true => exact hguarantee.ends hm rfl
    | false =>
      refine h.settled fun other hother => ?_
      rcases mem_cases hi hother with rfl | hother
      · exact hm
      · exact hall other (mem_set_of_mem_eraseIdx hother _)
  guarantee_rest s := ⟨Retains.refl s, fun _ => ⟨rfl, rfl⟩, fun _ => rfl, by simp [sharing]⟩

end Mabel.Node
