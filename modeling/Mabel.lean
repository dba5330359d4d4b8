import Mabel.Api.Correctness.Loopback
import Mabel.Graph.Correctness.Resolving
import Mabel.Graph.Correctness.Synced
import Mabel.Ledger.Correctness.Builders
import Mabel.Ledger.Correctness.Canonical
import Mabel.Ledger.Correctness.Forks
import Mabel.Ledger.Correctness.Invitations
import Mabel.Ledger.Correctness.Prefixes
import Mabel.Net.Correctness.Reader
import Mabel.Net.Correctness.Varints
import Mabel.Node.Correctness.Fetching
import Mabel.Node.Correctness.Listing
import Mabel.Node.Correctness.Overwrites
import Mabel.Node.Correctness.Reports
import Mabel.Node.Correctness.Restart
import Mabel.Node.Correctness.Rollback
import Mabel.Node.Correctness.Time
import Mabel.Node.Correctness.Vouching
import Mabel.Verification.Correctness.Cache
import Mabel.Verification.Correctness.Statuses
import Mabel.Verification.Correctness.TextRules
