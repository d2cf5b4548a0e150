import Regalia.Theory.Admission.Trail
import Regalia.Theory.Attest.Boots
import Regalia.Theory.Attest.Matching
import Regalia.Theory.Audit.Handovers
import Regalia.Theory.Audit.Replacing
import Regalia.Theory.Coordinator.Spending
import Regalia.Theory.Fencing.EpochFile
import Regalia.Theory.Fencing.Signers
import Regalia.Theory.Heartbeat.Freshness
import Regalia.Theory.Heartbeat.SignOnce
import Regalia.Theory.Heartbeat.TimeFloor
import Regalia.Theory.Lease.Holder
import Regalia.Theory.Lease.RevisionFloor
import Regalia.Theory.Membership.Convergence
import Regalia.Theory.Membership.Narrowing
import Regalia.Theory.Membership.RoundTrip
import Regalia.Theory.Opstate.Names
import Regalia.Theory.Opstate.Windows
import Regalia.Theory.Policy.Decisions
import Regalia.Theory.Policy.Repeats
import Regalia.Theory.Policy.Rewriting
import Regalia.Theory.Policy.Verifying
import Regalia.Theory.Policy.Walking
import Regalia.Theory.Takeover.Admitted
