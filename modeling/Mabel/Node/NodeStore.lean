import Mabel.Net.Server
import Mabel.Node.Serve

/-!
# The store a node serves from

Every request a server hands to the store is work on the home's storage, done off the reactor. Work
that panics is a task that did not finish, which the store reports as one that is not available.
-/

namespace Mabel.Node

open Wire Net

variable {C : Crypto} {α : Type}

/-- Storage work that is done off the reactor. -/
def blocking (work : OnNode C StoreError α) (s : LedgerStorage C) :
    Except StoreError α × LedgerStorage C :=
  match Program.run StoreOp.exec work s with
  | (.ok a, s) => (.ok a, s)
  | (.error (.reject error), s) => (.error error, s)
  | (.error (.panic site), s) =>
    (.error (.unavailable s!"the storage task did not finish: {site}"), s)

/-- A store over one node's home, given what the clock reads in the calls. -/
def nodeStore (loads : LoadClock) (clock : Clock) : Store C (LedgerStorage C) where
  head ledger s := blocking ((head s.setup ledger loads).mapReject unavailable) s
  readFrom ledger since limit s :=
    blocking ((readFrom s.setup ledger since limit loads).mapReject unavailable) s
  push ledger events provenance s := blocking (push s.setup ⟨ledger, events, provenance, clock⟩) s
  list offset limit s := (.ok (s.list offset limit), s)
  forks ledger offset limit s := (.ok (s.forks ledger offset limit), s)

/-- The server of a node, under the caps it has when it is not told otherwise. -/
def nodeServer (loads : LoadClock) (clock : Clock) : LedgerProtocol C (LedgerStorage C) :=
  ⟨nodeStore loads clock, .default⟩

theorem blocking_of_ok {work : OnNode C StoreError α} {s t : LedgerStorage C} {a : α}
    (h : Program.run StoreOp.exec work s = (.ok a, t)) : blocking work s = (.ok a, t) := by
  rw [blocking, h]

end Mabel.Node
