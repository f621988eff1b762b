import Beaver.Multiplier
import Beaver.Player

/-!
# Multipliers at work

A generator keeps one multiplier for each peer.  They work in the generator's own
thread one after the other, or each in a thread of its own.

A worker with its own thread takes jobs from an inbox and leaves the results in an
outbox, in order.  After its first error it takes no more jobs; a setup that fails
is such an error, and then the link to the peer is given up.  Handing out a job
stops at the first worker that takes none, and collecting results at the first
error, so results that nobody collected stay behind; but then one worker has stopped
for good, and no later job gets past it.
-/

namespace Beaver

/-- A multiplier with its own thread. -/
structure Worker (τ μ : Type) where
  link : LinkEnd
  /-- Nothing if the setup failed. -/
  multiplier : Option (Multiplier μ)
  /-- Whether it takes jobs. -/
  running : Bool
  /-- Results nobody has collected, the oldest first. -/
  outbox : List (Except Error (Multiplier.Output τ μ))

namespace Worker

variable {σ τ μ : Type} [ShareRing τ] [ShareRing μ] [Lift τ μ]

/-- Starts a worker with the setup of its multiplier. -/
def start (l : LinkEnd) (seeds : Transfer.Seeds) (key : Option μ) (passive : Bool) :
    Protocol (Worker τ μ) := do
  let (result, _) ← (Multiplier.setup l seeds key passive).start ()
  match result with
  | .ok m => pure ⟨l, some m, true, []⟩
  | .error failure =>
    Protocol.close l.address (.done ())
    let left := match failure with
      | .error e => [.error e]
      | .fault => []
    pure ⟨l, none, false, left⟩

/-- Works on a job and leaves the result in the outbox. -/
def work (job : Multiplier.Job τ) (w : Worker τ μ) : Protocol (Worker τ μ) := do
  match w.multiplier with
  | none => pure w
  | some m =>
    let (result, m) ← (Multiplier.process l job).start m
    match result with
    | .ok out => pure { w with multiplier := some m, outbox := w.outbox ++ [.ok out] }
    | .error (.error e) =>
      pure { w with multiplier := some m, running := false, outbox := w.outbox ++ [.error e] }
    | .error .fault =>
      Protocol.close w.link.address (.done ())
      pure { w with multiplier := none, running := false }
where
  l := w.link

/-- The error that stopped a worker, taken from its outbox. -/
def failure (w : Worker τ μ) : Error × Worker τ μ :=
  let e := match w.outbox with
    | .error e :: _ => e
    | _ => .stopped w.link.peer
  (e, { w with outbox := w.outbox.tail })

/-- The oldest result. -/
def collect (w : Worker τ μ) : Except Error (Multiplier.Output τ μ) × Worker τ μ :=
  ((w.outbox.head?).getD (.error (.stopped w.link.peer)), { w with outbox := w.outbox.tail })

/-- Hands a job to the workers in front of the first that takes none, and lets
them work side by side. -/
def handOut (job : Multiplier.Job τ) (workers : List (Worker τ μ)) : Protocol (List (Worker τ μ)) := do
  let ready := workers.takeWhile (·.running)
  let done ← Protocol.parallel (ready.map (work job))
  pure (done ++ workers.dropWhile (·.running))

/-- Collects the results up to the first error. -/
def collectAll : List (Worker τ μ) →
    Except Error (List (Multiplier.Output τ μ)) × List (Worker τ μ)
  | [] => (.ok [], [])
  | w :: ws =>
    match w.collect with
    | (.error e, w) => (.error e, w :: ws)
    | (.ok out, w) =>
      let (rest, ws) := collectAll ws
      (rest.map (out :: ·), w :: ws)

/-- The error of the first worker that took no job, if there is one. -/
def refusal : List (Worker τ μ) → Option (Error × List (Worker τ μ))
  | [] => none
  | w :: ws =>
    if w.running then (refusal ws).map fun (e, ws) => (e, w :: ws)
    else
      let (e, w) := w.failure
      some (e, w :: ws)

/-- Runs a job on all workers; results come in the order of the workers. -/
def fanOut (job : Multiplier.Job τ) :
    Session (List (Worker τ μ)) (List (Multiplier.Output τ μ)) := do
  let workers ← get
  let refused := refusal workers
  let worked ← Session.perform (handOut job ((refused.map (·.2)).getD workers))
  match refused with
  | some (e, _) =>
    set worked
    Session.fail e
  | none =>
    let (result, workers) := collectAll worked
    set workers
    Session.check result

end Worker

/-- The multipliers of a generator. -/
inductive Workers (τ μ : Type) where
  /-- In the generator's own thread. -/
  | inline (multipliers : List (LinkEnd × Multiplier μ))
  /-- Each in its own thread. -/
  | threaded (workers : List (Worker τ μ))

namespace Workers

variable {τ μ : Type} [ShareRing τ] [ShareRing μ] [Lift τ μ]

/-- Runs a job on one multiplier after the other, up to the first error. -/
def runInline (job : Multiplier.Job τ) :
    List (LinkEnd × Multiplier μ) →
      Protocol (Except Failure (List (Multiplier.Output τ μ)) × List (LinkEnd × Multiplier μ))
  | [] => pure (.ok [], [])
  | (l, m) :: rest => do
      let (result, m) ← (Multiplier.process l job).start m
      match result with
      | .error e => pure (.error e, (l, m) :: rest)
      | .ok out =>
        let (results, rest) ← runInline job rest
        pure (results.map (out :: ·), (l, m) :: rest)

/-- Runs a job with every peer; the results come in ascending order of the peers. -/
def run (job : Multiplier.Job τ) : Session (Workers τ μ) (List (Multiplier.Output τ μ)) :=
  ExceptT.mk fun workers => do
    match workers with
    | inline multipliers =>
      let (result, multipliers) ← runInline job multipliers
      pure (result, inline multipliers)
    | threaded workers =>
      let (result, workers) ← (Worker.fanOut job).start workers
      pure (result, threaded workers)

/-- Stops the multipliers.  A worker that was never set up cannot hand back its
link. -/
def stop : Workers τ μ → Except Error Unit
  | inline _ => .ok ()
  | threaded workers =>
    workers.forM fun w => if w.multiplier.isSome then .ok () else .error (.stopped w.link.peer)

end Workers

end Beaver
