import DeltaSwamp.Run

/-!
# The credential provider

`DatabricksCredentialProvider.credentials` and `invalidate`, one locked section,
vend request or answer at a time, by any number of threads.
-/

namespace DeltaSwamp.Vending

inductive Operation where
  | read
  | readWrite
  deriving DecidableEq

/-- A vended credential, with the vend it is from. -/
structure Cred where
  id : Nat
  operation : Operation
  expiresAt : Option ℚ
  /-- How many invalidations there had been when its vend request began. -/
  requested : Nat
  /-- When it was put into the cache. -/
  arrived : ℚ
  deriving DecidableEq

def Cred.expiresWithin (c : Cred) (now seconds : ℚ) : Bool :=
  match c.expiresAt with
  | none => false
  | some expiresAt => decide (expiresAt ≤ now + seconds)

def Cred.isExpired (c : Cred) (now : ℚ) : Bool := c.expiresWithin now 0

def unknownExpiryMaxAge : ℚ := 900

def clockSkewGrace : ℚ := 60

def refreshRetryBackoff : ℚ := 30

abbrev Thread := Nat

/-- A call of `credentials`. -/
structure Call where
  id : Nat
  operation : Operation
  /-- How many invalidations there had been when the call began. -/
  begun : Nat
  deriving DecidableEq

/-- Where a thread's call is. -/
inductive Phase where
  | idle
  | begun (call : Call)
  /-- Past the first locked section, with the cached credential it saw and whether it was usable. -/
  | looked (call : Call) (cached : Option Cred) (usable : Bool)
  /-- With the operation's vend lock. -/
  | locked (call : Call) (cached : Option Cred)
  /-- Past the second locked section, about to vend. -/
  | unserved (call : Call) (cached : Option Cred)
  | vending (call : Call) (cached : Option Cred) (requested : Nat)
  /-- The vend has answered; the credential is not in the cache yet. -/
  | vended (call : Call) (fresh : Cred)
  /-- The vend failed, and the cached credential was found unexpired. -/
  | fallback (call : Call) (cached : Cred)
  deriving DecidableEq

inductive Outcome where
  | answered (call : Call) (cred : Cred) (now : ℚ)
  | raised (call : Call) (cached : Option Cred) (now : ℚ)
  deriving DecidableEq

structure World where
  clock : ℚ
  cache : Operation → Option Cred
  vendedAt : Operation → Option ℚ
  retryAfter : Operation → Option ℚ
  skewed : Operation → Bool
  vendLock : Operation → Option Thread
  calls : Thread → Phase
  begun : Nat
  vends : Nat
  invalidations : Nat
  /-- The calls whose own vend failed. -/
  failed : List Nat
  outcomes : List Outcome

def World.start (clock : ℚ) : World where
  clock := clock
  cache _ := none
  vendedAt _ := none
  retryAfter _ := none
  skewed _ := false
  vendLock _ := none
  calls _ := .idle
  begun := 0
  vends := 0
  invalidations := 0
  failed := []
  outcomes := []

/-- A step of a thread's call, or something that happens meanwhile. -/
inductive Action where
  | begin (t : Thread) (operation : Operation)
  | look (t : Thread)
  | lock (t : Thread)
  | recheck (t : Thread)
  | request (t : Thread)
  /-- The vend's answer: a credential with that expiry, or a failure. -/
  | answer (t : Thread) (result : Option (Option ℚ))
  | store (t : Thread)
  | backOff (t : Thread)
  | invalidate
  | tick (elapsed : ℚ)

section
variable (refreshMargin : ℚ)

/-- `_margin_for` -/
def marginFor (vendedAt : Option ℚ) (cached : Cred) : ℚ :=
  match cached.expiresAt, vendedAt with
  | some expiresAt, some vendedAt => min refreshMargin (max 0 (expiresAt - vendedAt) / 2)
  | _, _ => refreshMargin

/-- `_is_fresh` -/
def isFresh (s : World) (operation : Operation) (cached : Cred) : Bool :=
  match cached.expiresAt, s.vendedAt operation with
  | none, none => true
  | none, some vendedAt => decide (s.clock - vendedAt < unknownExpiryMaxAge)
  | some _, vendedAt =>
    match vendedAt, s.skewed operation with
    | some vendedAt, true => decide (s.clock - vendedAt < clockSkewGrace)
    | vendedAt, _ => !cached.expiresWithin s.clock (marginFor refreshMargin vendedAt cached)

namespace World

def enter (s : World) (t : Thread) (phase : Phase) : World :=
  { s with calls := Function.update s.calls t phase }

/-- The call ends, without the vend lock. -/
def finish (s : World) (t : Thread) (outcome : Outcome) : World :=
  { s.enter t .idle with outcomes := outcome :: s.outcomes }

def release (s : World) (operation : Operation) : World :=
  { s with vendLock := Function.update s.vendLock operation none }

/-- The first locked section. -/
def look (s : World) (t : Thread) (call : Call) : World :=
  match s.cache call.operation with
  | none => s.enter t (.looked call none false)
  | some cached =>
    if isFresh refreshMargin s call.operation cached ||
        (!cached.isExpired s.clock &&
          decide (s.clock < (s.retryAfter call.operation).getD 0)) then
      s.finish t (.answered call cached s.clock)
    else s.enter t (.looked call (some cached) (!cached.isExpired s.clock))

/-- Taking the vend lock: a call with a usable credential does not wait for it. -/
def lock (s : World) (t : Thread) (call : Call) (cached : Option Cred) (usable : Bool) :
    Option World :=
  match s.vendLock call.operation, cached, usable with
  | none, cached, _ =>
    some { s.enter t (.locked call cached) with
      vendLock := Function.update s.vendLock call.operation (some t) }
  | some _, some cached, true => some (s.finish t (.answered call cached s.clock))
  | some _, _, _ => none

/-- The second locked section. -/
def recheck (s : World) (t : Thread) (call : Call) (cached : Option Cred) : World :=
  match s.cache call.operation with
  | none => s.enter t (.unserved call cached)
  | some current =>
    if cached.map Cred.id ≠ some current.id ∧ isFresh refreshMargin s call.operation current then
      (s.finish t (.answered call current s.clock)).release call.operation
    else s.enter t (.unserved call cached)

def answer (s : World) (t : Thread) (call : Call) (cached : Option Cred) (requested : Nat) :
    Option (Option ℚ) → World
  | some expiresAt =>
    { s.enter t (.vended call ⟨s.vends, call.operation, expiresAt, requested, s.clock⟩) with
      vends := s.vends + 1 }
  | none =>
    let s := { s with failed := call.id :: s.failed }
    match cached with
    | some cached =>
      if cached.isExpired s.clock then
        (s.finish t (.raised call (some cached) s.clock)).release call.operation
      else s.enter t (.fallback call cached)
    | none => (s.finish t (.raised call none s.clock)).release call.operation

/-- The third locked section: the fresh credential into the four maps. -/
def store (s : World) (t : Thread) (call : Call) (fresh : Cred) : World :=
  let fresh := { fresh with arrived := s.clock }
  { (s.finish t (.answered call fresh s.clock)).release call.operation with
    cache := Function.update s.cache call.operation (some fresh)
    vendedAt := Function.update s.vendedAt call.operation (some s.clock)
    retryAfter := Function.update s.retryAfter call.operation none
    skewed := Function.update s.skewed call.operation (fresh.isExpired s.clock) }

def backOff (s : World) (t : Thread) (call : Call) (cached : Cred) : World :=
  let remaining := cached.expiresAt.getD s.clock - s.clock
  { (s.finish t (.answered call cached s.clock)).release call.operation with
    retryAfter := Function.update s.retryAfter call.operation
      (some (s.clock + min refreshRetryBackoff (max 1 (remaining / 4)))) }

def invalidate (s : World) : World :=
  { s with
    cache := fun _ => none
    vendedAt := fun _ => none
    retryAfter := fun _ => none
    skewed := fun _ => false
    invalidations := s.invalidations + 1 }

def next (s : World) : Action → Option World
  | .begin t operation =>
    match s.calls t with
    | .idle =>
      some { s.enter t (.begun ⟨s.begun, operation, s.invalidations⟩) with begun := s.begun + 1 }
    | _ => none
  | .look t =>
    match s.calls t with
    | .begun call => some (s.look refreshMargin t call)
    | _ => none
  | .lock t =>
    match s.calls t with
    | .looked call cached usable => s.lock t call cached usable
    | _ => none
  | .recheck t =>
    match s.calls t with
    | .locked call cached => some (s.recheck refreshMargin t call cached)
    | _ => none
  | .request t =>
    match s.calls t with
    | .unserved call cached => some (s.enter t (.vending call cached s.invalidations))
    | _ => none
  | .answer t result =>
    match s.calls t with
    | .vending call cached requested => some (s.answer t call cached requested result)
    | _ => none
  | .store t =>
    match s.calls t with
    | .vended call fresh => some (s.store t call fresh)
    | _ => none
  | .backOff t =>
    match s.calls t with
    | .fallback call cached => some (s.backOff t call cached)
    | _ => none
  | .invalidate => some s.invalidate
  | .tick elapsed => if 0 ≤ elapsed then some { s with clock := s.clock + elapsed } else none

end World

end

end DeltaSwamp.Vending
