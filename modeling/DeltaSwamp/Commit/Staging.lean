import DeltaSwamp.Commit.Error
import DeltaSwamp.Result
import DeltaSwamp.Run

/-!
# Staging a stream of writes

`stage_stream` of `commit.rs`: data files written several at once, oldest
first waited for, and the loop that waits for the rest after a failure.
-/

namespace DeltaSwamp.Commit

/-- The `path` column of add-file metadata, as a cast to strings leaves it. -/
inductive PathColumn where
  | missing
  | uncastable (shown : Text)
  | notText
  | texts (paths : List (Option Text))
  deriving DecidableEq

/-- A `RecordBatch` of add-file metadata. -/
structure AddBatch where
  path : PathColumn
  deriving DecidableEq

inductive EngineData where
  | arrow (batch : AddBatch)
  /-- Data of another engine's kind. -/
  | other
  deriving DecidableEq

def addMetadataBatch : EngineData → Except NativeError AddBatch
  | .arrow batch => .ok batch
  | .other =>
    .error (.invalid "the engine returned add-file metadata that is not Arrow-backed".toList)

def batchPaths (batch : AddBatch) : Except NativeError (List Text) :=
  match batch.path with
  | .missing | .notText => .ok []
  | .uncastable shown => .error (.arrow shown)
  | .texts paths => .ok paths.reduceOption

/-- `track_written`: the metadata to add and what `written` becomes. -/
def trackWritten (metadata : EngineData) (written : List Text) :
    Except NativeError (AddBatch × List Text) := do
  let batch ← addMetadataBatch metadata
  let paths ← batchPaths batch
  return (batch, written ++ paths)

/-- What waiting for a spawned write returns. -/
inductive Write where
  | done (metadata : EngineData)
  | failed (error : KernelError)
  | panicked (shown : Text)
  deriving DecidableEq

/-- The kernel's metadata of a file written: one row, naming the file. -/
def Write.reports : Write → Bool
  | .done (.arrow ⟨.texts [some _]⟩) => true
  | .done _ => false
  | .failed _ | .panicked _ => true

/-- The data file of a write that succeeded. -/
def Write.file : Write → Option Text
  | .done (.arrow ⟨.texts [some file]⟩) => some file
  | _ => none

/-- What the closure `finish` does with a write. -/
def settle (write : Write) (written : List Text) : Except NativeError (AddBatch × List Text) :=
  match write with
  | .done metadata => trackWritten metadata written
  | .failed error => .error (.kernel error)
  | .panicked shown => .error (.invalid ("writing a data file failed: ".toList ++ shown))

def writeFiles : Nat := 16

def writeBytes : Nat := 256 * 2 ^ 20

section
variable {Values Data Context : Type}

/-- What staging is given: the table's partition columns, the split of a batch
by them, and the kernel's write state. -/
structure Stager (Values Data Context : Type) where
  partitionColumns : List Text
  splitByPartition : Data → Except NativeError (List (Values × Data))
  writeState : Except NativeError Unit
  unpartitionedWriteContext : Except NativeError Context
  partitionedWriteContext : Values → Except NativeError Context
  /-- `get_array_memory_size` -/
  memorySize : Data → Nat

abbrev Group (Values Data : Type) := Option Values × Data

/-- The groups a batch is written as. -/
def Stager.groups (lib : Stager Values Data Context) (batch : Data) :
    Except NativeError (List (Group Values Data)) :=
  if lib.partitionColumns.isEmpty then .ok [(none, batch)]
  else (lib.splitByPartition batch).map fun groups => groups.map fun g => (some g.1, g.2)

def Stager.writeContext (lib : Stager Values Data Context) : Option Values →
    Except NativeError Context
  | none => lib.unpartitionedWriteContext
  | some values => lib.partitionedWriteContext values

abbrev Stream (Data : Type) := List (Except NativeError (List Data))

/-- Where `stage_stream` stands: what is left of its three nested loops. -/
inductive Point (Values Data Context : Type) where
  | looping (groups : List (Group Values Data)) (batches : List Data) (stream : Stream Data)
  /-- Making room for one more write. -/
  | room (context : Context) (group : Group Values Data) (groups : List (Group Values Data))
      (batches : List Data) (stream : Stream Data)
  /-- Waiting for the last writes. -/
  | last
  /-- Waiting for the writes still running after an error. -/
  | failed (error : NativeError)
  | returned (result : Except NativeError Unit)

/-- Whether the loop over the stream is still running. -/
def Point.Looping : Point Values Data Context → Prop
  | .looping _ _ _ | .room _ _ _ _ _ => True
  | .last | .failed _ | .returned _ => False

structure Staging (Values Data Context : Type) where
  point : Point Values Data Context
  adds : List AddBatch
  written : List Text
  /-- The running writes, oldest first, with the bytes each holds. -/
  inflight : List (Write × Nat)
  inflightBytes : Nat
  /-- Every write started, with the group it writes. -/
  spawned : List (Group Values Data × Write)

namespace Staging

/-- The bytes the running writes hold. -/
def bytes (s : Staging Values Data Context) : Nat := (s.inflight.map Prod.snd).sum

def goTo (s : Staging Values Data Context) (point : Point Values Data Context) :
    Staging Values Data Context :=
  { s with point }

/-- `finish` -/
def finish (s : Staging Values Data Context) (write : Write) : Staging Values Data Context :=
  match settle write s.written with
  | .error e => s.goTo (.failed e)
  | .ok (batch, written) => { s with adds := s.adds ++ [batch], written }

/-- The caller's loop over the writes still running: only `written` is kept. -/
def drain (s : Staging Values Data Context) (write : Write) : Staging Values Data Context :=
  match write with
  | .done metadata =>
    match trackWritten metadata s.written with
    | .ok (_, written) => { s with written }
    | .error _ => s
  | .failed _ | .panicked _ => s

def spawn (s : Staging Values Data Context) (group : Group Values Data) (size : Nat)
    (write : Write) (next : Point Values Data Context) : Staging Values Data Context :=
  { s with
    point := next
    inflight := s.inflight ++ [(write, size)]
    inflightBytes := s.inflightBytes + size
    spawned := s.spawned ++ [(group, write)] }

end Staging

namespace Stager
variable (lib : Stager Values Data Context)

/-- `stage_stream` as it is called. -/
def start (adds : List AddBatch) (written : List Text) (stream : Stream Data) :
    Staging Values Data Context where
  point :=
    match lib.writeState with
    | .error e => .failed e
    | .ok () => .looping [] [] stream
  adds := adds
  written := written
  inflight := []
  inflightBytes := 0
  spawned := []

/-- Whether one more write of `size` bytes has to wait. -/
def full (s : Staging Values Data Context) (size : Nat) : Bool :=
  writeFiles ≤ s.inflight.length || writeBytes < s.inflightBytes + size

/-- The next step of `stage_stream`; `write` is what a write started by it will return. -/
def step (s : Staging Values Data Context) (write : Write) :
    Option (Staging Values Data Context) :=
  match s.point with
  | .looping (group :: groups) batches stream =>
    match lib.writeContext group.1 with
    | .error e => some (s.goTo (.failed e))
    | .ok context => some (s.goTo (.room context group groups batches stream))
  | .looping [] (batch :: batches) stream =>
    match lib.groups batch with
    | .error e => some (s.goTo (.failed e))
    | .ok groups => some (s.goTo (.looping groups batches stream))
  | .looping [] [] (.error e :: _) => some (s.goTo (.failed e))
  | .looping [] [] (.ok batches :: stream) => some (s.goTo (.looping [] batches stream))
  | .looping [] [] [] => some (s.goTo .last)
  | .room _ group groups batches stream =>
    match s.inflight with
    | [] =>
      some (s.spawn group (lib.memorySize group.2) write (.looping groups batches stream))
    | (oldest, size) :: inflight =>
      if full s (lib.memorySize group.2) then
        let inflightBytes := s.inflightBytes - size
        some ({ s with inflight, inflightBytes }.finish oldest)
      else some (s.spawn group (lib.memorySize group.2) write (.looping groups batches stream))
  | .last =>
    match s.inflight with
    | [] => some (s.goTo (.returned (.ok ())))
    | (oldest, _) :: inflight => some ({ s with inflight }.finish oldest)
  | .failed e =>
    match s.inflight with
    | [] => some (s.goTo (.returned (.error e)))
    | (oldest, _) :: inflight => some ({ s with inflight }.drain oldest)
  | .returned _ => none

/-- The states of a call, over writes whose metadata is as the kernel makes it. -/
def Runs (start : Staging Values Data Context) : Staging Values Data Context → Prop :=
  Run lib.step (fun _ write => write.reports = true) start

/-- The groups of a whole stream, in its order. -/
def streamGroups : Stream Data → Except NativeError (List (Group Values Data))
  | [] => .ok []
  | prepared :: stream => do
    let batches ← prepared
    let groups ← batches.mapM lib.groups
    let later ← streamGroups stream
    return groups.flatten ++ later

end Stager

end

end DeltaSwamp.Commit
