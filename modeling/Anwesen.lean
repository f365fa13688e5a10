import Anwesen.Daemon.Aborting
import Anwesen.Daemon.Attending
import Anwesen.Daemon.Health
import Anwesen.Daemon.Observing
import Anwesen.Daemon.Provenance
import Anwesen.Daemon.Serving
import Anwesen.Http.HeaderLines
import Anwesen.Http.Listing
import Anwesen.Query.Integers
import Anwesen.Query.Kinds
import Anwesen.Query.Merging
import Anwesen.Query.Operands
import Anwesen.Query.Operators
import Anwesen.Query.Projection
import Anwesen.Query.Reordering
import Anwesen.Vault.Coercion
import Anwesen.Vault.Searching
import Anwesen.Watcher.Noninterference
import Anwesen.Watcher.Rereading
import Anwesen.Foundation.Collecting
