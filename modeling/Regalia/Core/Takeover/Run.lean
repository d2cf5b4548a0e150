import Mathlib.Data.List.Basic

/-!
# The Take-Over and the Rejoin

`deploy/baremetal/takeover.py` and the `admit` of `rejoin.py`, on the survivor
and within one boot. A take-over makes the survivor's etcd a cluster of one:
it writes a drop-in that starts etcd with `force-new-cluster`, starts it, and
takes the drop-in away again. An admit adds a returning member, and asks
systemd first whether the drop-in is still there.

systemd knows of a drop-in what it read at its last `daemon-reload`, and
starts a unit with that. The files on disk, what systemd has loaded and what
etcd was started with are three things, and a run that is killed may leave
them apart at any of its commands. So each command of a run is a step of its
own, and any number of runs, admits and operators take turns.

What a command depends on besides this (return codes, revisions, signatures)
is in the answer a step carries.

## Main definitions

* `Machine`: The files, what systemd has loaded, the units and etcd's members.
* `Stage`, `Stage.effect`, `Stage.holds`, `Stage.next`: `run`, command by
  command.
* `find`: What `admit` makes of the members.
* `World`, `Move`, `World.step`: Runs, admits and operators on one machine.
-/

namespace Regalia.Takeover

/-! ### The machine -/

/-- A member as etcd lists it. One that has not started has no name. -/
structure Member where
  name : String := ""
  peerURLs : List String
  isLearner : Bool := false
  deriving DecidableEq, Repr

/-- The survivor. `dropin` and `config` are the two files of a take-over,
    `loaded` is whether the drop-in is among those systemd lists. -/
structure Machine where
  dropin : Bool := false
  config : Bool := false
  loaded : Bool := false
  etcd : Bool := true
  daemon : Bool := true
  members : List Member
  deriving DecidableEq, Repr

/-- What a history keeps. -/
inductive Happening where
  /-- A take-over run wrote the drop-in. -/
  | wrote
  /-- An admit added a member. -/
  | added (node : String)
  /-- etcd was started, with `force-new-cluster` or without. -/
  | started (forced : Bool)
  deriving DecidableEq, Repr

namespace Machine

/-- `systemctl daemon-reload`. -/
def reload (m : Machine) : Machine := { m with loaded := m.dropin }

/-- `systemctl start regalia-etcd`: nothing if it runs. With the drop-in it
    reads the take-over's configuration, and does not come up without it. -/
def start (me : String) (m : Machine) : Machine × List Happening :=
  if m.etcd then (m, [])
  else if m.loaded then
    if m.config then
      ({ m with etcd := true, members := m.members.filter (fun x => x.name = me) },
        [.started true])
    else (m, [])
  else ({ m with etcd := true }, [.started false])

/-- `systemctl restart regalia-etcd`. -/
def restart (me : String) (m : Machine) : Machine × List Happening :=
  start me { m with etcd := false }

end Machine

/-! ### A take-over run -/

/-- The command a run comes to next. -/
inductive Stage where
  /-- The authorization and `applied.json`. -/
  | checks
  | stopDaemon
  | daemonStopped
  | stopEtcd
  | etcdStopped
  | snapshotStatus
  | readConfig
  /-- A refusal before the force starts both units again. -/
  | backReload
  | backEtcd
  | backDaemon
  | writeConfig
  | writeDropin
  | forceReload
  | forceStart
  | forcedStatus
  | forcedMembers
  | getStateEpoch
  | putStateEpoch
  | removeDropin
  | removeConfig
  | normalReload
  | normalRestart
  | forcing
  | normalStatus
  | normalMembers
  | endReload
  | endDaemon
  deriving DecidableEq, Repr

/-- How a command came out: without an effect, with its effect but refused by
    a check, or as the run wants it. `already` is an answer for the state
    epoch, which is then not put again. -/
inductive Answer where
  | fails
  | refused
  | holds
  | already
  deriving DecidableEq, Repr

namespace Stage

/-- What the command does to the machine. -/
def effect (me : String) (m : Machine) : Stage → Machine × List Happening
  | stopDaemon => ({ m with daemon := false }, [])
  | stopEtcd => ({ m with etcd := false }, [])
  | backReload | forceReload | normalReload | endReload => (m.reload, [])
  | backEtcd | forceStart => m.start me
  | normalRestart => m.restart me
  | backDaemon | endDaemon => ({ m with daemon := true }, [])
  | writeConfig => ({ m with config := true }, [])
  | writeDropin => ({ m with dropin := true }, [.wrote])
  | removeDropin => ({ m with dropin := false }, [])
  | removeConfig => ({ m with config := false }, [])
  | _ => (m, [])

/-- What the run requires of the machine after the command: `is-active`, that
    etcd came up and answers, `alone`, and that the drop-in is not listed. -/
def holds (me : String) (m : Machine) : Stage → Bool
  | daemonStopped => !m.daemon
  | etcdStopped => !m.etcd
  | backEtcd | forceStart | normalRestart => m.etcd
  | forcedStatus | normalStatus | getStateEpoch | putStateEpoch => m.etcd
  | forcedMembers | normalMembers => m.etcd && m.members.map Member.name == [me]
  | forcing => !m.loaded
  | _ => true

/-- The next command, or the end of the run. -/
def next (answer : Answer) : Stage → Option Stage
  | checks => some stopDaemon
  | stopDaemon => some daemonStopped
  | daemonStopped => some stopEtcd
  | stopEtcd => some etcdStopped
  | etcdStopped => some snapshotStatus
  | snapshotStatus => some readConfig
  | readConfig => some writeConfig
  | backReload => some backEtcd
  | backEtcd => some backDaemon
  | backDaemon => none
  | writeConfig => some writeDropin
  | writeDropin => some forceReload
  | forceReload => some forceStart
  | forceStart => some forcedStatus
  | forcedStatus => some forcedMembers
  | forcedMembers => some getStateEpoch
  | getStateEpoch => if answer = .already then some removeDropin else some putStateEpoch
  | putStateEpoch => some removeDropin
  | removeDropin => some removeConfig
  | removeConfig => some normalReload
  | normalReload => some normalRestart
  | normalRestart => some forcing
  | forcing => some normalStatus
  | normalStatus => some normalMembers
  | normalMembers => some endReload
  | endReload => some endDaemon
  | endDaemon => none

/-- Where a refusal leads: back, while nothing is forced and etcd may be
    stopped. -/
def afterRefusal : Stage → Option Stage
  | stopEtcd | etcdStopped | snapshotStatus | readConfig => some backReload
  | _ => none

end Stage

/-! ### An admit -/

/-- The command an admit comes to next, for a node at its mesh URL. -/
inductive Ask where
  | forcing (node url : String)
  | memberList (node url : String)
  | memberAdd (node url : String)
  deriving DecidableEq, Repr

/-- `etcdconf.MAX_LEARNERS`. -/
def maxLearners : Nat := 2

/-- What an admit finds among the members. -/
inductive Finding where
  | refused
  | alreadyLearner
  | absent
  deriving DecidableEq, Repr

/-- The part of `admit` between the list and the add. -/
def find (members : List Member) (url : String) : Finding :=
  let mine := members.filter (fun m => m.peerURLs = [url])
  let others := members.filter (fun m => m ∉ mine)
  if others.any (fun m => !m.isLearner && m.name == "") then .refused
  else if maxLearners ≤ (others.filter Member.isLearner).length then .refused
  else
    match mine with
    | [] => .absent
    | m :: _ => if m.isLearner then .alreadyLearner else .refused

/-- The first checks of `admit`, against the mesh URLs of the manifest it
    reads. -/
def askFor (me node : String) (urls : List (String × String)) : Option Ask :=
  match urls.lookup me, urls.lookup node with
  | some _, some url => if node = me then none else some (.forcing node url)
  | _, _ => none

/-! ### Runs, admits and operators -/

/-- The survivor with the take-over runs and the admits begun on it. One that
    has ended is `none`. -/
structure World where
  machine : Machine
  runs : List (Option Stage) := []
  admits : List (Option Ask) := []
  history : List Happening := []

/-- What can happen next. Besides the runs and the admits, each of which may
    be killed between two commands: an operator's commands, etcd ending by
    itself, and what else changes its members (a learner that starts, a
    promotion, a removal). -/
inductive Move where
  | begin
  | takeover (i : Nat) (answer : Answer)
  | kill (i : Nat)
  | ask (node : String) (urls : List (String × String))
  | admitNext (i : Nat) (succeeds : Bool)
  | killAdmit (i : Nat)
  | start
  | restart
  | reload
  | stop
  | dies
  | changed (members : List Member)
  deriving DecidableEq

namespace World

/-- One command of a take-over run. -/
def takeover (me : String) (w : World) (i : Nat) (stage : Stage) (answer : Answer) : World :=
  if answer = .fails then { w with runs := w.runs.set i stage.afterRefusal }
  else
    let (m, happened) := stage.effect me w.machine
    { w with
      machine := m
      history := w.history ++ happened
      runs := w.runs.set i (if answer ≠ .refused ∧ stage.holds me m = true then stage.next answer
        else stage.afterRefusal) }

/-- One command of an admit. A command that fails ends it. -/
def admitNext (w : World) (i : Nat) (succeeds : Bool) : Ask → World
  | .forcing node url =>
    let next := if succeeds && !w.machine.loaded then some (.memberList node url) else none
    { w with admits := w.admits.set i next }
  | .memberList node url =>
    let next :=
      if succeeds && w.machine.etcd && find w.machine.members url == .absent then
        some (.memberAdd node url)
      else none
    { w with admits := w.admits.set i next }
  | .memberAdd node url =>
    if succeeds && w.machine.etcd then
      { w with
        machine := { w.machine with
          members := w.machine.members ++ [{ peerURLs := [url], isLearner := true }] }
        admits := w.admits.set i none
        history := w.history ++ [.added node] }
    else { w with admits := w.admits.set i none }

/-- A command of an operator. -/
def operate (w : World) (result : Machine × List Happening) : World :=
  { w with machine := result.1, history := w.history ++ result.2 }

def step (me : String) (w : World) : Move → World
  | .begin => { w with runs := w.runs ++ [some .checks] }
  | .takeover i answer =>
    match w.runs[i]? with
    | some (some stage) => w.takeover me i stage answer
    | _ => w
  | .kill i => { w with runs := w.runs.set i none }
  | .ask node urls => { w with admits := w.admits ++ [askFor me node urls] }
  | .admitNext i succeeds =>
    match w.admits[i]? with
    | some (some ask) => w.admitNext i succeeds ask
    | _ => w
  | .killAdmit i => { w with admits := w.admits.set i none }
  | .start => w.operate (w.machine.start me)
  | .restart => w.operate (w.machine.restart me)
  | .reload => w.operate (w.machine.reload, [])
  | .stop => w.operate ({ w.machine with etcd := false }, [])
  | .dies => w.operate ({ w.machine with etcd := false }, [])
  | .changed members => w.operate ({ w.machine with members := members }, [])

def run (me : String) (w : World) (moves : List Move) : World := moves.foldl (step me) w

/-- The survivor as it boots: nothing of a take-over is in `/run`. -/
def boot (members : List Member) (etcd daemon : Bool) : World :=
  { machine := { members := members, etcd := etcd, daemon := daemon } }

end World

end Regalia.Takeover
