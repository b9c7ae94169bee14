import DeltaSwamp.Dict
import DeltaSwamp.Run
import DeltaSwamp.Text

/-!
# Credential slots

`set`, `remove` and `SlotProvider::get_credential` of `credential_slot.rs`, one call after another.
The wait for a credential near its expiry ends by itself and changes nothing.
-/

namespace DeltaSwamp.Vending

structure SlotState (Opts Expiry : Type) where
  options : Opts
  expiresAt : Option Expiry
  generation : Nat

/-- A `u64` plus one. -/
def nextGeneration (generation : Nat) : Nat := (generation + 1) % 2 ^ 64

/-- A provider of slot `id`; what it caches is in the world. -/
structure SlotProvider (Opts Cred : Type) where
  id : Text
  initial : Cred
  convert : Opts → Option Cred

/-- What a provider caches. -/
structure CachedCredential (Cred : Type) where
  generation : Nat
  credential : Cred
  /-- How often the options of its id had been created or changed. -/
  publishes : Nat

/-- An answer of `get_credential`, with the options published last if the slot exists. -/
structure SlotAnswer (Opts Cred : Type) where
  provider : Nat
  credential : Cred
  published : Option Opts

structure SlotWorld (Opts Expiry Cred : Type) where
  slots : Text → Option (SlotState Opts Expiry)
  cached : Nat → Option (CachedCredential Cred)
  /-- The options of the last `set` of an id. -/
  published : Text → Option Opts
  /-- How often the options of an id were created or changed. -/
  publishes : Text → Nat
  answers : List (SlotAnswer Opts Cred)

inductive SlotCall (Opts Expiry : Type) where
  | set (id : Text) (options : Opts) (expiresAt : Option Expiry)
  | remove (id : Text)
  | getCredential (provider : Nat)

namespace SlotWorld

variable {Opts Expiry Cred : Type}

def start : SlotWorld Opts Expiry Cred where
  slots _ := none
  cached _ := none
  published _ := none
  publishes _ := 0
  answers := []

section
variable (s : SlotWorld Opts Expiry Cred)

/-- A slot with new options. -/
def publish (id : Text) (options : Opts) (expiresAt : Option Expiry) (generation : Nat) :
    SlotWorld Opts Expiry Cred :=
  { s with
    slots := Function.update s.slots id (some ⟨options, expiresAt, generation⟩)
    published := Function.update s.published id (some options)
    publishes := Function.update s.publishes id (s.publishes id + 1) }

def remove (id : Text) : SlotWorld Opts Expiry Cred :=
  { s with slots := Function.update s.slots id none }

/-- What `get_credential` returns, and what it caches then. -/
def getCredential (provider : SlotProvider Opts Cred) (cached : Option (CachedCredential Cred)) :
    Cred × Option (CachedCredential Cred) :=
  match s.slots provider.id with
  | none => (provider.initial, cached)
  | some state =>
    match cached.filter fun c => c.generation = state.generation with
    | some c => (c.credential, cached)
    | none =>
      match provider.convert state.options with
      | none => ((cached.map CachedCredential.credential).getD provider.initial, cached)
      | some credential =>
        (credential, some ⟨state.generation, credential, s.publishes provider.id⟩)

def get (providers : Nat → SlotProvider Opts Cred) (p : Nat) : SlotWorld Opts Expiry Cred :=
  let answer := s.getCredential (providers p) (s.cached p)
  let published := (s.slots (providers p).id).bind fun _ => s.published (providers p).id
  { s with
    cached := Function.update s.cached p answer.2
    answers := ⟨p, answer.1, published⟩ :: s.answers }

variable [DecidableEq Opts] [BEq Expiry] [Inhabited Opts]

/-- `set`, with the slot created on first use. -/
def set (id : Text) (options : Opts) (expiresAt : Option Expiry) : SlotWorld Opts Expiry Cred :=
  match s.slots id with
  | none =>
    if (default : Opts) = options ∧ ((none : Option Expiry) == expiresAt) = true then
      s.publish id options expiresAt 0
    else s.publish id options expiresAt (nextGeneration 0)
  | some state =>
    if state.options = options ∧ (state.expiresAt == expiresAt) = true then
      { s with published := Function.update s.published id (some options) }
    else s.publish id options expiresAt (nextGeneration state.generation)

def next (providers : Nat → SlotProvider Opts Cred) :
    SlotCall Opts Expiry → Option (SlotWorld Opts Expiry Cred)
  | .set id options expiresAt => some (s.set id options expiresAt)
  | .remove id => some (s.remove id)
  | .getCredential p => some (s.get providers p)

end

end SlotWorld

section
variable {Opts Expiry Cred : Type}

/-- An answer is the credential of the options published last, if these convert to one. -/
def SlotAnswer.Latest (providers : Nat → SlotProvider Opts Cred) (a : SlotAnswer Opts Cred) :
    Prop :=
  ∀ options credential, a.published = some options →
    (providers a.provider).convert options = some credential → a.credential = credential

/-- A call that finds the generation it cached finds the slot as it was then. -/
def SlotUnreused (providers : Nat → SlotProvider Opts Cred) (s : SlotWorld Opts Expiry Cred) :
    SlotCall Opts Expiry → Prop
  | .getCredential p => ∀ c state, s.cached p = some c → s.slots (providers p).id = some state →
      c.generation = state.generation → c.publishes = s.publishes (providers p).id
  | _ => True

/-- A slot holds the options published last; what was cached since they changed is theirs. -/
structure SlotKept (providers : Nat → SlotProvider Opts Cred) (s : SlotWorld Opts Expiry Cred) :
    Prop where
  published : ∀ id state, s.slots id = some state → s.published id = some state.options
  cached : ∀ p c, s.cached p = some c → c.publishes ≤ s.publishes (providers p).id
  converted : ∀ p c state, s.cached p = some c → s.slots (providers p).id = some state →
    c.publishes = s.publishes (providers p).id →
      (providers p).convert state.options = some c.credential
  answers : ∀ a ∈ s.answers, a.Latest providers

variable {providers : Nat → SlotProvider Opts Cred} {s : SlotWorld Opts Expiry Cred}
  {id : Text} {options : Opts} {expiresAt : Option Expiry}

theorem slotKept_start : SlotKept providers (.start : SlotWorld Opts Expiry Cred) where
  published _ _ h := by cases h
  cached _ _ h := by cases h
  converted _ _ _ h := by cases h
  answers _ h := by cases h

theorem slotKept_publish (h : SlotKept providers s) (generation : Nat) :
    SlotKept providers (s.publish id options expiresAt generation) where
  published := by
    intro other state hslot
    simp only [SlotWorld.publish, Function.update_apply] at hslot ⊢
    split_ifs at hslot with hid
    · cases hslot
      rw [if_pos hid]
    · rw [if_neg hid]
      exact h.published other state hslot
  cached := by
    intro p c hc
    have hle := h.cached p c hc
    simp only [SlotWorld.publish, Function.update_apply]
    split_ifs with hid
    · rw [hid] at hle
      omega
    · exact hle
  converted := by
    intro p c state hc hslot hcount
    have hle := h.cached p c hc
    simp only [SlotWorld.publish, Function.update_apply] at hslot hcount
    split_ifs at hslot hcount with hid
    · rw [hid] at hle
      omega
    · exact h.converted p c state hc hslot hcount
  answers := h.answers

theorem slotKept_remove (h : SlotKept providers s) : SlotKept providers (s.remove id) where
  published := by
    intro other state hslot
    simp only [SlotWorld.remove, Function.update_apply] at hslot
    split_ifs at hslot
    exact h.published other state hslot
  cached := h.cached
  converted := by
    intro p c state hc hslot hcount
    simp only [SlotWorld.remove, Function.update_apply] at hslot
    split_ifs at hslot
    exact h.converted p c state hc hslot hcount
  answers := h.answers

theorem getCredential_converts {p : Nat} {state : SlotState Opts Expiry} {credential : Cred}
    (h : SlotKept providers s) (hslot : s.slots (providers p).id = some state)
    (hconvert : (providers p).convert state.options = some credential)
    (hunreused : SlotUnreused providers s (.getCredential p)) :
    (s.getCredential (providers p) (s.cached p)).1 = credential := by
  unfold SlotWorld.getCredential
  rw [hslot]
  dsimp only
  split
  · rename_i c hc
    obtain ⟨hcached, hgeneration⟩ := Option.filter_eq_some_iff.mp hc
    have hcount := hunreused c state hcached hslot (of_decide_eq_true hgeneration)
    have hsame := h.converted p c state hcached hslot hcount
    rw [hconvert] at hsame
    exact (Option.some.inj hsame).symm
  · rw [hconvert]

theorem getCredential_caches {p : Nat} {c : CachedCredential Cred}
    (hc : (s.getCredential (providers p) (s.cached p)).2 = some c) :
    s.cached p = some c ∨ ∃ state, s.slots (providers p).id = some state ∧
      (providers p).convert state.options = some c.credential ∧
      c.publishes = s.publishes (providers p).id := by
  unfold SlotWorld.getCredential at hc
  cases hslot : s.slots (providers p).id with
  | none =>
    rw [hslot] at hc
    exact .inl hc
  | some state =>
    rw [hslot] at hc
    dsimp only at hc
    split at hc
    · exact .inl hc
    · split at hc
      · exact .inl hc
      · rename_i credential hconvert
        cases hc
        exact .inr ⟨state, rfl, hconvert, rfl⟩

theorem slotKept_get {p : Nat} (h : SlotKept providers s)
    (hunreused : SlotUnreused providers s (.getCredential p)) :
    SlotKept providers (s.get providers p) where
  published := h.published
  cached := by
    intro q c hc
    simp only [SlotWorld.get, Function.update_apply] at hc ⊢
    split_ifs at hc with hq
    · subst hq
      cases getCredential_caches hc with
      | inl hold => exact h.cached q c hold
      | inr hnew =>
        obtain ⟨-, -, -, hcount⟩ := hnew
        exact hcount.le
    · exact h.cached q c hc
  converted := by
    intro q c state hc hslot hcount
    simp only [SlotWorld.get, Function.update_apply] at hc hslot hcount
    split_ifs at hc with hq
    · subst hq
      cases getCredential_caches hc with
      | inl hold => exact h.converted q c state hold hslot hcount
      | inr hnew =>
        obtain ⟨state', hslot', hconvert, -⟩ := hnew
        rw [hslot] at hslot'
        cases hslot'
        exact hconvert
    · exact h.converted q c state hc hslot hcount
  answers := by
    intro a ha
    simp only [SlotWorld.get, List.mem_cons] at ha
    cases ha with
    | inr hold => exact h.answers a hold
    | inl hnew =>
      subst hnew
      intro options credential hpublished hconvert
      dsimp only at hpublished hconvert ⊢
      obtain ⟨state, hslot, hlast⟩ := Option.bind_eq_some_iff.mp hpublished
      rw [h.published _ state hslot] at hlast
      cases hlast
      exact getCredential_converts h hslot hconvert hunreused

variable [DecidableEq Opts] [BEq Expiry] [Inhabited Opts]

theorem slotKept_set (h : SlotKept providers s) :
    SlotKept providers (s.set id options expiresAt) := by
  unfold SlotWorld.set
  cases hslot : s.slots id with
  | none =>
    dsimp only
    split_ifs
    · exact slotKept_publish h _
    · exact slotKept_publish h _
  | some state =>
    dsimp only
    split_ifs with hsame
    · refine ⟨?_, h.cached, h.converted, h.answers⟩
      intro other state' hother
      simp only [Function.update_apply]
      split_ifs with hid
      · subst hid
        rw [hslot] at hother
        cases hother
        rw [hsame.1]
      · exact h.published other state' hother
    · exact slotKept_publish h _

/-- In every run in which no call finds the generation it cached after the slot has changed, every
answer is the credential of the options published last. -/
theorem slot_serves (providers : Nat → SlotProvider Opts Cred) (s : SlotWorld Opts Expiry Cred)
    (hrun : Run (SlotWorld.next · providers) (SlotUnreused providers) .start s) :
    ∀ a ∈ s.answers, a.Latest providers := by
  have hkept : SlotKept providers s := by
    refine hrun.invariant slotKept_start fun s t call h hok hnext => ?_
    cases call with
    | set id options expiresAt =>
      cases hnext
      exact slotKept_set h
    | remove id =>
      cases hnext
      exact slotKept_remove h
    | getCredential p =>
      cases hnext
      exact slotKept_get h hok
  exact hkept.answers

end

/-- A provider whose credential is the bearer token in its options. -/
def bearerProvider : SlotProvider (Dict Text Text) Text where
  id := "slot".toList
  initial := "initial".toList
  convert options := options.get "bearer_token".toList

def bearerOptions (token : String) : Dict Text Text := [("bearer_token".toList, token.toList)]

abbrev BearerWorld := SlotWorld (Dict Text Text) Nat Text

def publishBearer (token : String) : SlotCall (Dict Text Text) Nat :=
  .set "slot".toList (bearerOptions token) none

/-- A token is published and read. -/
def firstRead : BearerWorld :=
  (SlotWorld.start.set "slot".toList (bearerOptions "first") none).get (fun _ => bearerProvider) 0

/-- Another is, in the same slot. -/
def secondRead (s : BearerWorld) : BearerWorld :=
  (s.set "slot".toList (bearerOptions "second") none).get (fun _ => bearerProvider) 0

theorem firstRead_run : Run (SlotWorld.next · fun _ => bearerProvider)
    (SlotUnreused fun _ => bearerProvider) (.start : BearerWorld) firstRead := by
  refine .step (.step .refl (e := publishBearer "first") trivial rfl) (e := .getCredential 0) ?_ rfl
  intro c state hc
  cases hc

theorem slot_serves_second : (secondRead firstRead).answers.length = 2 ∧
    (secondRead firstRead).answers.Forall (SlotAnswer.Latest fun _ => bearerProvider) := by
  refine ⟨by decide, List.forall_iff_forall_mem.mpr ?_⟩
  apply slot_serves
  refine .step (.step firstRead_run (e := publishBearer "second") trivial rfl)
    (e := .getCredential 0) ?_ rfl
  intro c state hc hslot hgeneration
  cases hc
  cases hslot
  cases hgeneration

/-- After a remove the first token is served still, whatever was published. -/
theorem recreated_serves_first : ∃ s : BearerWorld,
    Run (SlotWorld.next · fun _ => bearerProvider) (fun _ _ => True) .start s ∧
      ¬ ∀ a ∈ s.answers, a.Latest fun _ => bearerProvider := by
  refine ⟨secondRead (firstRead.remove "slot".toList), ?_, ?_⟩
  · have hfirst : Run (SlotWorld.next · fun _ => bearerProvider) (fun _ _ => True)
        (.start : BearerWorld) firstRead := firstRead_run.weaken fun _ _ _ => trivial
    exact .step (.step (.step hfirst (e := .remove "slot".toList) trivial rfl)
      (e := publishBearer "second") trivial rfl) (e := .getCredential 0) trivial rfl
  · intro h
    have hlatest := h ⟨0, "first".toList, some (bearerOptions "second")⟩ List.mem_cons_self
    have hsame : "first".toList = "second".toList := hlatest _ _ rfl rfl
    revert hsame
    decide

end DeltaSwamp.Vending
