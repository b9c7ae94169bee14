import DeltaSwamp.Dict
import DeltaSwamp.Run
import DeltaSwamp.Scan.Files

/-!
# The restricted scan

`RestrictedScan`: files planned from the scan's metadata, in the caller's order
or as they come, read one at a time or ahead of the consumer.
-/

namespace DeltaSwamp.Scan

section
variable {V L ε : Type}

def prefetchFiles : Nat := 16

def prefetchBytes : Nat := 268435456

/-- A file being read in the background, with its decoded-size estimate; whether its worker is
done. -/
structure Task where
  file : ScanFile
  estimate : Nat
  done : Bool

/-- What a scan keeps as it is: the engine, its options, the memory a batch takes, and the files to
read, all where there is no order to read them in. -/
structure Config (V L ε : Type) where
  engine : Engine V L ε
  options : Options
  memory : List (Row L) → Nat
  order : Option (List String)

/-- An ordered scan reads its files ahead. -/
def Config.prefetch (config : Config V L ε) : Bool := config.order.isSome

def Config.wanted (config : Config V L ε) (file : ScanFile) : Bool :=
  config.order.all fun order => decide (file.path ∈ order)

structure State (V L ε : Type) where
  metadata : List (Except ε (List ScanFile))
  /-- The order to read in, until the replay that finds its files. -/
  order : Option (List String)
  pending : List ScanFile
  current : Option (OpenFile V ε)
  finished : Bool
  inflight : List Task
  inflightBytes : Nat
  /-- The consumer waits for the first file in flight. -/
  waiting : Bool
  learned : Bool
  decodedRatio : ℚ
  ready : List (List (Row L))
  /-- What the consumer has been handed. -/
  out : List (Except ε (List (Row L)))

/-- A scan before its first batch. -/
def Config.start (config : Config V L ε) (metadata : List (Except ε (List ScanFile))) :
    State V L ε where
  metadata := metadata
  order := config.order
  pending := []
  current := none
  finished := false
  inflight := []
  inflightBytes := 0
  waiting := false
  learned := false
  decodedRatio := 4
  ready := []
  out := []

/-- The wanted files of every metadata batch, by path. -/
def found (config : Config V L ε) :
    Dict String ScanFile → List (Except ε (List ScanFile)) → Except ε (Dict String ScanFile)
  | files, [] => .ok files
  | _, .error e :: _ => .error e
  | files, .ok batch :: metadata =>
    found config (files.update ((batch.filter config.wanted).map fun file => (file.path, file)))
      metadata

/-- The files of an order, each taken out once it is found. -/
def removeEach : Dict String ScanFile → List String → List ScanFile
  | _, [] => []
  | files, path :: order =>
    match files.get path with
    | none => removeEach files order
    | some file => file :: removeEach (files.pop path) order

def estimate (ratio : ℚ) (file : ScanFile) : Nat := ⌊(max file.size 0 : ℚ) * ratio⌋.toNat

/-- Files moved from the queue into flight while their number and estimated bytes allow. -/
def fill (limit : Nat) (ratio : ℚ) :
    List ScanFile → List Task → Nat → List ScanFile × List Task × Nat
  | [], inflight, bytes => ([], inflight, bytes)
  | file :: pending, inflight, bytes =>
    if inflight.length < limit ∧
        (inflight = [] ∨ bytes + estimate ratio file ≤ prefetchBytes) then
      fill limit ratio pending (inflight ++ [⟨file, estimate ratio file, false⟩])
        (bytes + estimate ratio file)
    else (file :: pending, inflight, bytes)

namespace State

def limit (s : State V L ε) : Nat := if s.learned then prefetchFiles else 2

def fillPrefetch (s : State V L ε) : State V L ε :=
  let filled := fill s.limit s.decodedRatio s.pending s.inflight s.inflightBytes
  { s with
    pending := filled.1
    inflight := filled.2.1
    inflightBytes := filled.2.2 }

/-- An item handed to the consumer; nothing is read past an error. -/
def deliver (s : State V L ε) (batch : List (Row L)) : State V L ε :=
  { s with out := s.out ++ [.ok batch] }

def fail (s : State V L ε) (e : ε) : State V L ε :=
  { s with
    out := s.out ++ [.error e]
    finished := true }

end State

def decoded (config : Config V L ε) (batches : List (List (Row L))) : Nat :=
  (batches.map config.memory).sum

/-- The first file in flight, once it is there. -/
def takePrefetched (config : Config V L ε) (s : State V L ε) (task : Task) (inflight : List Task) :
    State V L ε :=
  let s := { s with
    inflight := inflight
    inflightBytes := s.inflightBytes - task.estimate
    waiting := false }
  match loadFile config.engine config.options task.file with
  | .error e => s.fail e
  | .ok batches =>
    let ratio : ℚ := decoded config batches / max task.file.size 1
    { s with
      learned := true
      decodedRatio := if ratio > s.decodedRatio then ratio else s.decodedRatio
      ready := s.ready ++ batches }

/-- One batch of the file being read. -/
def nextOpen (config : Config V L ε) (s : State V L ε) (opened : OpenFile V ε) : State V L ε :=
  match opened.batches with
  | [] => { s with current := none }
  | .error e :: _ => s.fail e
  | .ok physical :: batches =>
    match finishBatch config.engine config.options opened.file opened.selection physical with
    | .error e => s.fail e
    | .ok (rows, selection) =>
      { s with current := some ⟨opened.file, batches, selection⟩ }.deliver rows

/-- The wanted files of the next scan-metadata batch, or all of them in order. -/
def planNext (config : Config V L ε) (s : State V L ε) : State V L ε :=
  match s.order with
  | some order =>
    match found config [] s.metadata with
    | .error e =>
      { s with
        order := none
        metadata := [] }.fail e
    | .ok files =>
      { s with
        order := none
        metadata := []
        pending := s.pending ++ removeEach files order }
  | none =>
    match s.metadata with
    | [] => { s with finished := true }
    | .error e :: metadata => { s with metadata := metadata }.fail e
    | .ok batch :: metadata =>
      { s with
        metadata := metadata
        pending := s.pending ++ batch.filter config.wanted }

/-- One round of `next_batch`'s loop; none where the scan is at its end or waits for a worker. -/
def turn (config : Config V L ε) (s : State V L ε) : Option (State V L ε) :=
  if s.finished then none
  else
    match s.ready, s.current with
    | batch :: ready, _ => some ({ s with ready := ready }.deliver batch)
    | [], some opened => some (nextOpen config s opened)
    | [], none =>
      if s.waiting then
        match s.inflight with
        | [] => none
        | task :: inflight =>
          if task.done then some (takePrefetched config s task inflight) else none
      else if config.prefetch && !(s.fillPrefetch.inflight.isEmpty) then
        some { s.fillPrefetch with waiting := true }
      else
        match s.pending with
        | [] => some (planNext config s)
        | file :: pending =>
          match openFile config.engine file with
          | .error e => some ({ s with pending := pending }.fail e)
          | .ok opened =>
            some { s with
              pending := pending
              current := some opened }

/-- A worker is done with a file; or the consumer goes on. -/
inductive Event where
  | done (k : Nat)
  | turn

def step (config : Config V L ε) (s : State V L ε) : Event → Option (State V L ε)
  | .turn => turn config s
  | .done k =>
    match s.inflight[k]? with
    | none => none
    | some task =>
      if task.done then none
      else some { s with inflight := s.inflight.set k { task with done := true } }

end

end DeltaSwamp.Scan
