/-
# The transparency log

The tree with its roots and proofs, the store with its journal, and the service
over them: histories of crashes and restarts, receipts, what an offline verifier
makes of their JSON, and any number of requests in flight, with what they report of
the external anchor and disclose of the log. Then the edges: what the readers of JSON
texts, DER responses and HTTP replies accept, and what every request is answered with.
And what these rest on inside: the tree's levels and the lookups into them, the
journal's lines, the elements of a response and the text its evidence is shown in.
Last the whole deployment, against a plain list of records as the reference: what it
answers and in which order, what outlives its sessions, what its heads pin down, that
it goes on, what its answers depend on, what they cost, and what it posts to the
authority; how it stops once its lock is poisoned, and what becomes of a journal that
several servers write to.
-/

import UnidppLog.Proofs
import UnidppLog.Recovery
import UnidppLog.Restart
import UnidppLog.History
import UnidppLog.Verification
import UnidppLog.Tampering
import UnidppLog.Acceptance
import UnidppLog.Linearization
import UnidppLog.Anchors
import UnidppLog.Submissions
import UnidppLog.Noninterference
import UnidppLog.Reading
import UnidppLog.Responses
import UnidppLog.HostileReplies
import UnidppLog.Reads
import UnidppLog.Writes
import UnidppLog.Growth
import UnidppLog.Lookups
import UnidppLog.RecordLines
import UnidppLog.Framing
import UnidppLog.Evidence
import UnidppLog.Refinement
import UnidppLog.Survival
import UnidppLog.Pinning
import UnidppLog.Progress
import UnidppLog.Independence
import UnidppLog.Work
import UnidppLog.Responder
import UnidppLog.FailStop
import UnidppLog.Writers
